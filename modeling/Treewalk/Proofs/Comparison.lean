import Treewalk.Proofs.Guests

/-!
# Comparing runs

Facts about the readers of a host often compare two runs: on two hosts that differ in something, or
to two depths. For such a fact the readers have to keep the comparison wherever those they call do,
and this is so whenever everything they are made of keeps it. A `Comparison` is a relation between
runs with just this property, and what follows for the readers is shown here for all comparisons at
once.
-/

namespace Treewalk

variable {g : Guests}

/-- All of a host that readers and scripts decide by. -/
structure Host.Sight (g : Guests) where
  current : Token
  upcoming : Token
  diagnostics : List Diagnostic
  openingHere : Option (Opening ⊕ g.Opener)
  joiningNext : Strength → Option (Joining ⊕ g.Joiner)

/-- What is seen of a host. -/
def Host.sight (host : Host g) : Sight g :=
  ⟨host.current, host.upcoming, host.diagnostics, host.openingHere, host.joiningNext⟩

namespace Readers

variable (readers : Readers g)

/-- The leftmost operand of an expression, by what is seen. -/
def operandOn (sight : Host.Sight g) : Run g (Option Expr) :=
  match sight.openingHere with
  | none => .tell none [.noOpening sight.current.kind]
  | some rule => readers.openWith rule

theorem operand_eq : readers.operand = fun host => readers.operandOn host.sight host := by
  funext host
  simp only [operand, operandOn, Host.sight]
  cases host.openingHere <;> rfl

/-- One more join, by what is seen. -/
def joinOn (floor : Strength) (left : Expr) (sight : Host.Sight g) : Run g (Option Expr) :=
  match sight.joiningNext floor with
  | none => .done (some left)
  | some rule => ((readers.joinWith rule left).andThen (readers.more floor)).afterMove

theorem join_eq (floor : Strength) (left : Expr) :
    readers.join floor left = fun host => readers.joinOn floor left host.sight host := by
  funext host
  simp only [join, joinOn, Host.sight]
  cases host.joiningNext floor <;> rfl

end Readers

/-- A relation between runs that is kept by everything the readers are made of. -/
structure Comparison (g : Guests) where
  Rel : {α : Type} → Run g α → Run g α → Prop
  done {α : Type} (value : α) : Rel (Run.done value) (Run.done value)
  tell {α : Type} (value : α) (found : List Diagnostic) :
    Rel (Run.tell value found) (Run.tell value found)
  /-- What is done may depend on what is seen. -/
  onSight {α : Type} {f k : Host.Sight g → Run g α} : (∀ sight, Rel (f sight) (k sight)) →
    Rel (fun host => f host.sight host) fun host => k host.sight host
  afterMove {α : Type} {r r' : Run g α} : Rel r r' → Rel r.afterMove r'.afterMove
  bind {α β : Type} {r r' : Run g α} {f f' : α → Run g β} : Rel r r' →
    (∀ value, Rel (f value) (f' value)) → Rel (r.bind f) (r'.bind f')
  registerOpening {α : Type} {r r' : Run g α} (kind : Token.Kind) (rule : Opening ⊕ g.Opener) :
    Rel r r' → Rel (fun host => r (host.registerOpening kind rule)) fun host =>
      r' (host.registerOpening kind rule)
  registerJoining {α : Type} {r r' : Run g α} (kind : Token.Kind) (rule : Joining ⊕ g.Joiner) :
    Rel r r' → Rel (fun host => r (host.registerJoining kind rule)) fun host =>
      r' (host.registerJoining kind rule)

namespace Comparison

variable {α β : Type} (c : Comparison g)

/-! ## Parts of readers -/

theorem onTokens {f k : Token → Token → Run g α} (h : ∀ t u, c.Rel (f t u) (k t u)) :
    c.Rel (Run.onTokens f) (Run.onTokens k) :=
  c.onSight (f := fun s => f s.current s.upcoming) (k := fun s => k s.current s.upcoming)
    fun _ => h _ _

theorem map {r r' : Run g α} (h : c.Rel r r') (f : α → β) : c.Rel (r.map f) (r'.map f) :=
  c.bind h fun value => c.done (f value)

theorem andThen {r r' : Run g (Option α)} {f f' : α → Run g (Option β)} (h : c.Rel r r')
    (hf : ∀ value, c.Rel (f value) (f' value)) : c.Rel (r.andThen f) (r'.andThen f') := by
  refine c.bind h fun value => ?_
  cases value with
  | none => exact c.done none
  | some value => exact hf value

theorem followedBy {r r' : Run g (Option α)} {s s' : Run g (List α)} (h : c.Rel r r')
    (hs : c.Rel s s') : c.Rel (r.followedBy s) (r'.followedBy s') :=
  c.bind h fun _ => c.map (c.afterMove hs) _

theorem ite {p : Prop} [Decidable p] {r r' s s' : Run g α} (h : c.Rel r r') (hs : c.Rel s s') :
    c.Rel (if p then r else s) (if p then r' else s') := by
  split
  · exact h
  · exact hs

theorem expect (kind : Token.Kind) : c.Rel (Run.expect (g := g) kind) (Run.expect kind) :=
  c.onTokens fun _ _ => c.ite (c.afterMove (c.done _)) (c.tell _ _)

theorem separated (value : α) : c.Rel (Run.separated (g := g) value) (Run.separated value) :=
  c.onTokens fun _ _ => c.ite (c.afterMove (c.done value)) (c.done value)

/-! ## Readers -/

/-- All readers compare, one by one. -/
structure Related (readers others : Readers g) : Prop where
  expr : ∀ floor, c.Rel (readers.expr floor) (others.expr floor)
  more : ∀ floor left, c.Rel (readers.more floor left) (others.more floor left)
  body : c.Rel readers.body others.body
  program : c.Rel readers.program others.program
  guest : ∀ name, c.Rel (readers.guest name) (others.guest name)

namespace Related

variable {c} {readers others : Readers g}

/-- So do scripts that have them read. -/
theorem run_script (h : c.Related readers others) (script : Script g.Opener g.Joiner) :
    c.Rel (script.run readers) (script.run others) := by
  induction script with
  | answer value => exact c.done value
  | look next ih =>
    exact c.onSight (f := fun s => (next s.current s.diagnostics).run readers)
      (k := fun s => (next s.current s.diagnostics).run others) fun _ => ih _ _
  | expression floor next ih => exact c.bind (h.expr floor) ih
  | program next ih => exact c.bind h.program fun statements => ih ⟨statements⟩
  | call guest next ih => exact c.bind (h.guest guest) ih
  | registerOpening kind rule next ih => exact c.registerOpening kind rule ih
  | registerJoining kind rule next ih => exact c.registerJoining kind rule ih

theorem group (h : c.Related readers others) : c.Rel readers.group others.group :=
  c.andThen (c.afterMove (h.expr .lowest)) fun _ => c.map (c.expect .rparen) _

theorem branch (h : c.Related readers others) : c.Rel readers.branch others.branch :=
  c.andThen (c.expect .lbrace) fun _ => c.map (c.afterMove h.body) _

theorem conditional (h : c.Related readers others) :
    c.Rel readers.conditional others.conditional := by
  refine c.onTokens fun t _ => c.andThen (c.expect .lparen) fun _ => ?_
  refine c.andThen h.group fun condition => c.andThen h.branch fun consequence => ?_
  exact c.onTokens fun _ _ => c.ite (c.map (c.afterMove h.branch) _) (c.done _)

theorem openWith (h : c.Related readers others) (rule : Opening ⊕ g.Opener) :
    c.Rel (readers.openWith rule) (others.openWith rule) := by
  match rule with
  | .inl (.atom _) =>
    simp only [Readers.openWith]
    exact c.onTokens fun _ _ => c.tell _ _
  | .inl (.unary _) =>
    simp only [Readers.openWith]
    exact c.onTokens fun _ _ => c.map (c.afterMove (h.expr .unary)) _
  | .inl .group => exact h.group
  | .inl .conditional => exact h.conditional
  | .inr guest => exact h.run_script (g.opens guest)

theorem operand (h : c.Related readers others) : c.Rel readers.operand others.operand := by
  rw [readers.operand_eq, others.operand_eq]
  refine c.onSight fun s => ?_
  unfold Readers.operandOn
  cases s.openingHere with
  | none => exact c.tell _ _
  | some rule => exact h.openWith rule

theorem joinWith (h : c.Related readers others) (rule : Joining ⊕ g.Joiner) (left : Expr) :
    c.Rel (readers.joinWith rule left) (others.joinWith rule left) := by
  match rule with
  | .inl (.binary _) =>
    simp only [Readers.joinWith]
    exact c.onTokens fun t _ => c.map (c.afterMove (h.expr t.kind.strength)) _
  | .inl .keep => exact c.done _
  | .inl .complement =>
    simp only [Readers.joinWith]
    exact c.onTokens fun _ _ => c.done _
  | .inl .juxtapose =>
    simp only [Readers.joinWith]
    exact c.onTokens fun _ _ => c.map (h.expr .call) _
  | .inl .refuse => exact c.done _
  | .inr guest => exact h.run_script (g.joins guest left)

theorem join (h : c.Related readers others) (floor : Strength) (left : Expr) :
    c.Rel (readers.join floor left) (others.join floor left) := by
  rw [readers.join_eq, others.join_eq]
  refine c.onSight fun s => ?_
  unfold Readers.joinOn
  cases s.joiningNext floor with
  | none => exact c.done _
  | some rule => exact c.afterMove (c.andThen (h.joinWith rule left) (h.more floor))

theorem stmt (h : c.Related readers others) : c.Rel readers.stmt others.stmt := by
  have hvalue : c.Rel (readers.expr .lowest).afterMove (others.expr .lowest).afterMove :=
    c.afterMove (h.expr .lowest)
  refine c.onTokens fun t _ => c.ite ?_ (c.ite ?_ ?_)
  · refine c.andThen (c.expect .ident) fun name => c.andThen (c.expect .assign) fun _ => ?_
    exact c.bind hvalue fun _ => c.separated _
  · refine c.onTokens fun _ _ => c.ite (c.afterMove (c.done _)) (c.ite (c.done _) ?_)
    exact c.bind hvalue fun _ => c.separated _
  · exact c.andThen (h.expr .lowest) fun _ => c.separated _

/-- **One call more keeps the comparison.** -/
theorem next (h : c.Related readers others) : c.Related readers.next others.next where
  expr floor := c.andThen h.operand (h.more floor)
  more := h.join
  body := by
    simp only [Readers.next]
    exact c.onTokens fun _ _ => c.ite (c.done _) (c.ite (c.tell _ _) (c.followedBy h.stmt h.body))
  program := by
    simp only [Readers.next]
    exact c.onTokens fun _ _ => c.ite (c.done _) (c.followedBy h.stmt h.program)
  guest name := h.run_script (g.opens name)

end Related

/-- **All commands compare** if the readers do. -/
theorem obey {depth depth' : Nat} (h : c.Related (Readers.deep g depth) (Readers.deep g depth'))
    (command : Host.Command g) : c.Rel (Host.obey depth command) (Host.obey depth' command) := by
  cases command with
  | program => exact c.map h.program _
  | expression floor => exact c.map (h.expr floor) _
  | registerOpening kind rule => exact c.registerOpening kind rule (c.done Parser.Reply.registered)
  | registerJoining kind rule => exact c.registerJoining kind rule (c.done Parser.Reply.registered)

end Comparison

end Treewalk
