import Treewalk.Reader

/-!
# How readings are put together

Facts about the readers of a program hold of all of them at once: how far they look, how many moves
they make, what becomes of the braces they pass over, which trees they build. For such a fact it is
of no interest which reader calls which. What counts is the steps that readings are put together
from, and these are few. `Assembled` has a rule for each, and every reader is assembled by them,
whatever the rules of the parser are. A fact that is kept by each of the steps then holds of every
reader, by induction on how its reading is put together.

A reader is taken here as a function of the position, which is the list of tokens from the current
one on. What a step depends on besides is the `Place`: whether the current token is still to be
read.
-/

namespace Treewalk

/-! ## Supplies that look the same -/

/-- Two supplies have the same first `n` tokens. -/
def Agree (n : Nat) (xs ys : List Token) : Prop := xs.take n = ys.take n

namespace Agree

variable {n : Nat} {xs ys : List Token}

theorem drop (h : Agree n xs ys) (m : Nat) : Agree (n - m) (xs.drop m) (ys.drop m) := by
  unfold Agree at h ⊢
  rw [← List.drop_take, ← List.drop_take, h]

theorem nil_left (h : Agree n [] ys) (hn : 0 < n) : ys = [] := by
  unfold Agree at h
  rw [List.take_nil, eq_comm, List.take_eq_nil_iff] at h
  exact h.resolve_left (by omega)

theorem cons_left {t : Token} (h : Agree n (t :: xs) ys) (hn : 0 < n) :
    ∃ ys', ys = t :: ys' ∧ Agree (n - 1) xs ys' := by
  obtain ⟨m, rfl⟩ : ∃ m, n = m + 1 := ⟨n - 1, by omega⟩
  unfold Agree at h
  cases ys with
  | nil => cases h
  | cons u ys' =>
    rw [List.take_succ_cons, List.take_succ_cons, List.cons.injEq] at h
    exact ⟨ys', by rw [h.1], h.2⟩

theorem mono {m : Nat} (h : Agree n xs ys) (hle : m ≤ n) : Agree m xs ys := by
  unfold Agree at h ⊢
  rw [← Nat.min_eq_left hle, ← List.take_take, ← List.take_take, h]

theorem next_eq (h : Agree n xs ys) (hn : 0 < n) : Token.next ys = Token.next xs := by
  cases xs with
  | nil => rw [h.nil_left hn]
  | cons t xs =>
    obtain ⟨ys', rfl, -⟩ := h.cons_left hn
    rfl

end Agree

/-! ## The steps -/

/-- Where a reading starts. -/
inductive Place where
  /-- The current token is still to be read. -/
  | fresh
  /-- Something has been read, and its last token is the current one. -/
  | resting
  /-- The current token is the next one of a block. -/
  | block
deriving DecidableEq

/-- How many tokens a step decides by: the current one, and the one behind it where the current one
has been read. -/
def Place.sight : Place → Nat
  | .fresh | .block => 1
  | .resting => 2

/-- How much is read: a part of a statement, or the statement to its end, where it may take in a
semicolon. -/
inductive Extent where
  | part
  | whole
deriving DecidableEq

/-- Neither a brace nor a semicolon nor the end of input. -/
def Token.Kind.IsPlain (kind : Token.Kind) : Prop :=
  kind ≠ .lbrace ∧ kind ≠ .rbrace ∧ kind ≠ .semicolon ∧ kind ≠ .eof
deriving Decidable

namespace Rules

/-- A token of this kind can be the first one of what is read. -/
def Begins (rules : Rules) (kind : Token.Kind) : Prop :=
  rules.opening kind ≠ none ∨ kind.IsPlain

/-- The kinds behind which an operand has to come. -/
inductive WantsOperand (rules : Rules) (kind : Token.Kind) : Prop
  | unary {op : UnaryOp} : rules.opening kind = some (.unary op) → WantsOperand rules kind
  | group : rules.opening kind = some .group → WantsOperand rules kind
  | binary {op : BinaryOp} : rules.joining kind = some (.binary op) → WantsOperand rules kind
  | lparen : kind = .lparen → WantsOperand rules kind
  | assign : kind = .assign → WantsOperand rules kind

end Rules

/-- A reading put together by the steps below, of a value of which `P` holds if a diagnostic is
reason enough for `gaps`. -/
inductive Assembled (rules : Rules) (gaps : Prop) :
    {α : Type} → Place → Extent → (α → Prop) → (List Token → Reading (Option α)) → List Token → Prop
  /-- What is done may depend on what is in sight. -/
  | onSight {α : Type} {place : Place} {extent : Extent} {P : α → Prop}
      {read f : List Token → Reading (Option α)} {ahead : List Token} :
      (∀ ts, Agree place.sight ahead ts → read ts = f ts) →
      Assembled rules gaps place extent P f ahead →
      Assembled rules gaps place extent P read ahead
  /-- A value is made of another one. -/
  | map {α β : Type} {place : Place} {extent : Extent} {P : α → Prop} {Q : β → Prop}
      {f : List Token → Reading (Option α)} {k : α → β} {ahead : List Token} :
      Assembled rules gaps place extent P f ahead → (∀ a, P a → Q (k a)) →
      Assembled rules gaps place extent Q (fun ts => (f ts).map (Option.map k)) ahead
  /-- Reading goes on from where a part came to rest, unless nothing was read. -/
  | andThen {α β : Type} {place : Place} {extent : Extent} {P : α → Prop} {Q : β → Prop}
      {f : List Token → Reading (Option α)} {k : α → List Token → Reading (Option β)}
      {ahead : List Token} :
      place ≠ .block → Assembled rules gaps place .part P f ahead →
      (∀ a, (f ahead).value = some a → Assembled rules gaps .resting extent (fun b => P a → Q b)
        (k a) (ahead.drop (f ahead).moves)) →
      Assembled rules gaps place extent Q (fun ts => (f ts).andThen fun a m => k a (ts.drop m))
        ahead
  /-- There is no more to be read. -/
  | done {α : Type} {extent : Extent} {P : α → Prop} {a : α} {ahead : List Token} :
      P a → Assembled rules gaps .resting extent P (fun _ => .done (some a)) ahead
  /-- An expected token is missing. -/
  | missed {α : Type} {extent : Extent} {P : α → Prop} {expected : Token.Kind}
      {ahead : List Token} :
      expected ≠ .rbrace → (found : Token.Kind) → Assembled rules gaps .resting extent P
        (fun _ => .fail (.unexpected expected found)) ahead
  /-- The next token is taken, and reading goes on behind it. -/
  | accept {α : Type} {extent : Extent} {P : α → Prop} {f : List Token → Reading (Option α)}
      {u t : Token} {rest : List Token} :
      t.kind.IsPlain → Assembled rules gaps .resting extent P f (t :: rest) →
      Assembled rules gaps .resting extent P (fun ts => (f (ts.drop 1)).shift 1) (u :: t :: rest)
  /-- A block comes next. -/
  | enclose {α : Type} {extent : Extent} {P : α → Prop} {f : List Token → Reading (Option α)}
      {u brace : Token} {rest : List Token} :
      brace.kind = .lbrace → Assembled rules gaps .block .part P f rest →
      Assembled rules gaps .resting extent P (fun ts => (f (ts.drop 2)).shift 2)
        (u :: brace :: rest)
  /-- An operand comes next: the current token wants one, or no closing brace follows. -/
  | enter {α : Type} {P : α → Prop} {f : List Token → Reading (Option α)} {t : Token}
      {next : List Token} :
      rules.WantsOperand t.kind ∨ (Token.next next).kind ≠ .rbrace →
      Assembled rules gaps .fresh .part P f next →
      Assembled rules gaps .resting .part P (fun ts => (f (ts.drop 1)).shift 1) (t :: next)
  /-- The current token opens no expression. -/
  | unopened {α : Type} {P : α → Prop} {ahead : List Token} :
      (∀ t ∈ ahead.head?, rules.opening t.kind = none) →
      Assembled rules gaps .fresh .part P (fun _ => .fail (.noOpening (Token.next ahead).kind))
        ahead
  /-- The current token is an operand by itself. At the end of input it may be one too. -/
  | operand {α : Type} {P : α → Prop} {a : α} {ahead : List Token} :
      rules.opening (Token.next ahead).kind ≠ none → P a →
      Assembled rules gaps .fresh .part P (fun _ => .done (some a)) ahead
  /-- The current token should be an integer and is none. -/
  | invalid {α : Type} {P : α → Prop} {literal : String} {ahead : List Token} :
      rules.opening (Token.next ahead).kind ≠ none →
      Assembled rules gaps .fresh .part P (fun _ => .fail (.invalidInteger literal)) ahead
  /-- The current token opens nothing by a rule that refuses it. -/
  | refuseOpening {α : Type} {P : α → Prop} {ahead : List Token} :
      rules.opening (Token.next ahead).kind = some (.atom .refuse) →
      Assembled rules gaps .fresh .part P (fun _ => .done none) ahead
  /-- The current token is the first one of what is read. -/
  | begin {α : Type} {extent : Extent} {P : α → Prop} {f : List Token → Reading (Option α)}
      {t : Token} {next : List Token} :
      rules.Begins t.kind → Assembled rules gaps .resting extent P f (t :: next) →
      Assembled rules gaps .fresh extent P f (t :: next)
  /-- The token that joins is the first one of what is joined. -/
  | juxtapose {α : Type} {P : α → Prop} {f : List Token → Reading (Option α)} {t : Token}
      {next : List Token} :
      rules.joining t.kind = some .juxtapose →
      Assembled rules gaps .fresh .part P f (t :: next) →
      Assembled rules gaps .resting .part P f (t :: next)
  /-- The token that joins makes nothing of what it joins. -/
  | refuseJoining {α : Type} {P : α → Prop} {t : Token} {next : List Token} :
      rules.joining t.kind = some .refuse →
      Assembled rules gaps .resting .part P (fun _ => .done none) (t :: next)
  /-- The statement ends with a semicolon. -/
  | separate {α : Type} {P : α → Prop} {a : α} {u t : Token} {rest : List Token} :
      t.kind = .semicolon → P a →
      Assembled rules gaps .resting .whole P (fun _ => ⟨some a, 1, []⟩) (u :: t :: rest)
  /-- The statement ends with a value, which may be missing. -/
  | value {α β : Type} {P : α → Prop} {Q : β → Prop} {f : List Token → Reading (Option α)}
      {k : Option α → β} {t : Token} {next : List Token} :
      rules.WantsOperand t.kind ∨ (Token.next next).kind ≠ .rbrace →
      Assembled rules gaps .fresh .part P f next →
      (∀ v, (v = none → gaps) → (∀ a, v = some a → P a) → Q (k v)) →
      Assembled rules gaps .resting .whole Q (fun ts =>
        let r := (f (ts.drop 1)).shift 1
        ⟨some (k r.value), r.moves + separator (ts.drop (r.moves + 1)), r.diagnostics⟩) (t :: next)
  /-- The block is closed. -/
  | close {α : Type} {P : α → Prop} {a : α} {t : Token} {next : List Token} :
      t.kind = .rbrace → P a →
      Assembled rules gaps .block .part P (fun _ => .done (some a)) (t :: next)
  /-- The input ends in the block. -/
  | leave {α : Type} {P : α → Prop} {a : α} {ahead : List Token} :
      (Token.next ahead).kind = .eof → P a →
      Assembled rules gaps .block .part P (fun _ => ⟨some a, 0, [.unexpected .rbrace .eof]⟩) ahead
  /-- The block goes on with a statement. -/
  | turn {α : Type} {P : α → Prop} {Q : List α → Prop} {f : List Token → Reading (Option α)}
      {k : List Token → Reading (List α)} {t : Token} {next : List Token} :
      t.kind ≠ .rbrace → Assembled rules gaps .fresh .whole P f (t :: next) →
      Assembled rules gaps .block .part Q (fun ts => (k ts).map some)
        ((t :: next).drop ((f (t :: next)).moves + 1)) →
      (∀ first others, (∀ a, first = some a → P a) → Q others → Q (first.toList ++ others)) →
      Assembled rules gaps .block .part Q
        (fun ts => ((f ts).followedBy fun m => k (ts.drop (m + 1))).map some) (t :: next)

namespace Assembled

variable {rules : Rules} {gaps : Prop} {α : Type} {place : Place} {extent : Extent}
  {P Q : α → Prop} {read f : List Token → Reading (Option α)} {ahead : List Token}

theorem imp (h : Assembled rules gaps place extent P read ahead) (himp : ∀ a, P a → Q a) :
    Assembled rules gaps place extent Q read ahead := by
  refine .onSight (fun ts _ => ?_) (h.map himp)
  show read ts = (read ts).map (Option.map id)
  rw [Option.map_id]
  rfl

/-! What is in sight is nothing, the current token, or the next one as well. -/

theorem onNil (hread : read [] = f []) (h : Assembled rules gaps place extent P f []) :
    Assembled rules gaps place extent P read [] := by
  refine .onSight (fun ts hts => ?_) h
  rw [hts.nil_left (by cases place <;> decide), hread]

theorem onCurrent {t : Token} {next : List Token} (hread : ∀ ts, read (t :: ts) = f (t :: ts))
    (h : Assembled rules gaps place extent P f (t :: next)) :
    Assembled rules gaps place extent P read (t :: next) := by
  refine .onSight (fun ts hts => ?_) h
  obtain ⟨ts', rfl, -⟩ := hts.cons_left (by cases place <;> decide)
  exact hread ts'

theorem onLast {u : Token} (hread : read [u] = f [u])
    (h : Assembled rules gaps .resting extent P f [u]) :
    Assembled rules gaps .resting extent P read [u] := by
  refine .onSight (fun ts hts => ?_) h
  obtain ⟨ts', rfl, hts'⟩ := hts.cons_left (by decide)
  rw [hts'.nil_left (by decide), hread]

theorem onNext {u t : Token} {rest : List Token}
    (hread : ∀ ts, read (u :: t :: ts) = f (u :: t :: ts))
    (h : Assembled rules gaps .resting extent P f (u :: t :: rest)) :
    Assembled rules gaps .resting extent P read (u :: t :: rest) := by
  refine .onSight (fun ts hts => ?_) h
  obtain ⟨ts', rfl, hts'⟩ := hts.cons_left (by decide)
  obtain ⟨rest', rfl, -⟩ := hts'.cons_left (by decide)
  exact hread rest'

end Assembled

/-! ## Single tokens -/

theorem moves_of_expect {kind : Token.Kind} {next : List Token} {t : Token}
    (h : (expect kind next).value = some t) : (expect kind next).moves = 1 := by
  unfold expect at h ⊢
  split
  · rfl
  · rename_i hne
    rw [if_neg hne] at h
    cases h

/-- What binds to the expression before it is plain. -/
theorem Token.Kind.isPlain_of_lt {kind : Token.Kind} {floor : Strength}
    (h : floor < kind.strength) : kind.IsPlain := by
  cases kind with
  | lbrace | rbrace | semicolon | eof => exact absurd h (Strength.not_lt_lowest floor)
  | _ => decide

namespace Assembled

variable {rules : Rules} {gaps : Prop} {α : Type} {extent : Extent} {P : α → Prop}

/-- The next token is taken if it is of the kind expected, and reading goes on behind it. -/
theorem expect (kind : Token.Kind) (hkind : kind.IsPlain)
    {k : Token → List Token → Reading (Option α)} {ahead : List Token}
    (h : ∀ t rest, ahead.drop 1 = t :: rest → t.kind = kind →
      Assembled rules gaps .resting extent P (k t) (t :: rest)) :
    Assembled rules gaps .resting extent P
      (fun ts => (Treewalk.expect kind (ts.drop 1)).andThen fun t _ => k t (ts.drop 1)) ahead := by
  by_cases hnext : (Token.next (ahead.drop 1)).kind = kind
  · match ahead with
    | [] | [_] => exact absurd hnext.symm hkind.2.2.2
    | u :: t :: rest =>
      have ht : t.kind = kind := hnext
      refine .onNext (fun ts => ?_) (.accept (ht ▸ hkind) (h t rest rfl ht))
      show (Treewalk.expect kind (t :: ts)).andThen _ = _
      rw [expect_cons ht]
      rfl
  · refine .onSight (fun ts hts => ?_) (.missed hkind.2.1 (Token.next (ahead.drop 1)).kind)
    have heq := (hts.drop 1).next_eq (by decide)
    rw [expect_of_ne (by rwa [heq]), heq]
    rfl

/-- The next token is taken if it is of the given kind, and reading goes on behind it. Otherwise
there is no more to be read. -/
theorem option (kind : Token.Kind) (hkind : kind.IsPlain) {f : List Token → Reading (Option α)}
    {a : α} {ahead : List Token} (ha : P a)
    (h : ∀ t rest, ahead.drop 1 = t :: rest →
      Assembled rules gaps .resting extent P f (t :: rest)) :
    Assembled rules gaps .resting extent P (fun ts =>
      if (Token.next (ts.drop 1)).kind = kind then (f (ts.drop 1)).shift 1 else .done (some a))
      ahead := by
  by_cases hnext : (Token.next (ahead.drop 1)).kind = kind
  · match ahead with
    | [] | [_] => exact absurd hnext.symm hkind.2.2.2
    | u :: t :: rest =>
      have ht : t.kind = kind := hnext
      refine .onNext (fun ts => ?_) (.accept (ht ▸ hkind) (h t rest rfl))
      exact if_pos ht
  · refine .onSight (fun ts hts => ?_) (.done ha)
    rw [(hts.drop 1).next_eq (by decide), if_neg hnext]

/-- A semicolon is taken in if there is one. -/
theorem separator {a : α} (ha : P a) (ahead : List Token) :
    Assembled rules gaps .resting .whole P (fun ts => ⟨some a, separator (ts.drop 1), []⟩)
      ahead := by
  by_cases hnext : (Token.next (ahead.drop 1)).kind = .semicolon
  · match ahead with
    | [] | [_] => cases hnext
    | u :: t :: rest =>
      have ht : t.kind = .semicolon := hnext
      refine .onNext (fun ts => ?_) (.separate ht ha)
      show (⟨_, if t.kind = .semicolon then 1 else 0, _⟩ : Reading (Option α)) = _
      rw [if_pos ht]
  · refine .onSight (fun ts hts => ?_) (.done ha)
    rw [Treewalk.separator, (hts.drop 1).next_eq (by decide), if_neg hnext]
    rfl

end Assembled

/-! ## Trees -/

/-- What holds of a statement, if there is one, and of all others, holds of all of them. -/
theorem forall_mem_toList_append {α : Type} {P : α → Prop} (first : Option α) (others : List α)
    (hfirst : ∀ a, first = some a → P a) (hothers : ∀ a ∈ others, P a) :
    ∀ a ∈ first.toList ++ others, P a := by
  intro a ha
  rcases List.mem_append.mp ha with ha | ha
  · exact hfirst a (Option.mem_toList.mp ha)
  · exact hothers a ha

/-- A property of expressions, of blocks and of statements that every node takes over from its parts
where a reader builds it. A binding may be without a value for the reason `gaps`. -/
structure Hereditary (rules : Rules) (gaps : Prop) where
  OfExpr : Expr → Prop
  OfBlock : Block → Prop
  OfStmt : Stmt → Prop
  atom {t : Token} {atom : Atom} {e : Expr} :
    rules.opening t.kind = some (.atom atom) → (atom.read t).1 = some e → OfExpr e
  unary {t : Token} {op : UnaryOp} {operand : Expr} :
    rules.opening t.kind = some (.unary op) → OfExpr operand → OfExpr (.unary t op operand)
  binary {t : Token} {op : BinaryOp} {left right : Expr} :
    rules.joining t.kind = some (.binary op) → OfExpr left → OfExpr right →
      OfExpr (.binary t left op right)
  complement {t : Token} {left : Expr} :
    rules.joining t.kind = some .complement → OfExpr left → OfExpr (.unary t .not left)
  juxtapose {t : Token} {left right : Expr} :
    rules.joining t.kind = some .juxtapose → OfExpr left → OfExpr right →
      OfExpr (.binary t left .mul right)
  conditional {t : Token} {condition : Expr} {consequence : Block} {alternative : Option Block} :
    rules.opening t.kind = some .conditional → OfExpr condition → OfBlock consequence →
      (∀ b, alternative = some b → OfBlock b) →
      OfExpr (.conditional t condition consequence alternative)
  block {t : Token} {statements : List Stmt} :
    t.kind = .lbrace → (∀ s ∈ statements, OfStmt s) → OfBlock ⟨t, statements⟩
  binding {t name : Token} {value : Option Expr} :
    t.kind = .kwLet → name.kind = .ident → (value = none → gaps) →
      (∀ e, value = some e → OfExpr e) → OfStmt (.binding t (.ofToken name) value)
  result {t : Token} {value : Option Expr} :
    t.kind = .kwReturn → (∀ e, value = some e → OfExpr e) → OfStmt (.result t value)
  expression {t : Token} {value : Expr} : OfExpr value → OfStmt (.expression t value)

/-- Of every tree nothing at all is asked. -/
def Hereditary.trivial (rules : Rules) : Hereditary rules True where
  OfExpr _ := True
  OfBlock _ := True
  OfStmt _ := True
  atom _ _ := True.intro
  unary _ _ := True.intro
  binary _ _ _ := True.intro
  complement _ _ := True.intro
  juxtapose _ _ _ := True.intro
  conditional _ _ _ _ := True.intro
  block _ _ := True.intro
  binding _ _ _ _ := True.intro
  result _ _ := True.intro
  expression _ := True.intro

theorem Reading.map_eq_andThen {α β : Type} (r : Reading (Option α)) (f : α → β) :
    r.map (Option.map f) = r.andThen fun a _ => .done (some (f a)) := by
  cases hvalue : r.value with
  | none =>
    rw [andThen_of_none hvalue, map, hvalue]
    rfl
  | some a =>
    rw [andThen_of_some hvalue, map, hvalue]
    simp only [done, Option.map_some, List.append_nil, Nat.add_zero]

namespace Rules

open Reading

variable {rules : Rules} {gaps : Prop} (trees : Hereditary rules gaps)

/-! ## One lemma for each reader -/

/-- A token that is an operand by itself. -/
theorem atom_assembled {atom : Atom} {ahead : List Token}
    (hopen : rules.opening (Token.next ahead).kind = some (.atom atom)) :
    Assembled rules gaps .fresh .part trees.OfExpr (fun _ =>
      ⟨(atom.read (Token.next ahead)).1, 0, (atom.read (Token.next ahead)).2⟩) ahead := by
  have hne : rules.opening (Token.next ahead).kind ≠ none := by
    rw [hopen]
    exact Option.some_ne_none _
  cases atom with
  | name | boolean | truth => exact .operand hne (trees.atom hopen rfl)
  | integer =>
    cases hvalue : Integer.ofText? (Token.next ahead).literal with
    | none =>
      simp only [Atom.read, hvalue]
      exact .invalid hne
    | some n =>
      simp only [Atom.read, hvalue]
      refine .operand hne (trees.atom hopen ?_)
      simp only [Atom.read, hvalue]
  | refuse => exact .refuseOpening hopen

mutual

theorem readExpr_assembled (floor : Strength) (ahead : List Token) :
    Assembled rules gaps .fresh .part trees.OfExpr (rules.readExpr floor) ahead := by
  refine .onSight (fun ts _ => ?_) (.andThen nofun (readOperand_assembled ahead) fun left _ =>
    readMore_assembled floor left _)
  rw [readExpr]
termination_by 8 * ahead.length + 3
decreasing_by
  · omega
  · simp only [List.length_drop]; omega

theorem readOperand_assembled (ahead : List Token) :
    Assembled rules gaps .fresh .part trees.OfExpr rules.readOperand ahead := by
  match ahead with
  | [] =>
    cases hopen : rules.opening .eof with
    | none => exact .onNil (by rw [readOperand, hopen]; rfl) (.unopened nofun)
    | some opening =>
      cases opening with
      | atom atom =>
        exact .onNil (by rw [readOperand, hopen]; rfl) (atom_assembled trees hopen)
      | unary | group | conditional =>
        exact .onNil (by rw [readOperand, hopen]; rfl) (.unopened nofun)
  | t :: next =>
    cases hopen : rules.opening t.kind with
    | none =>
      refine .onCurrent (fun ts => by rw [readOperand, hopen]; rfl) (.unopened fun u hu => ?_)
      rwa [← Option.some.inj hu]
    | some opening =>
      have hbegins : rules.Begins t.kind := .inl (by rw [hopen]; exact Option.some_ne_none _)
      cases opening with
      | atom atom =>
        exact .onCurrent (fun ts => by rw [readOperand, hopen]; rfl) (atom_assembled trees hopen)
      | unary op =>
        exact .onCurrent (fun ts => by rw [readOperand, hopen]; rfl) (.begin hbegins
          (.map (.enter (.inl (.unary hopen)) (readExpr_assembled .unary next)) fun operand =>
            trees.unary hopen))
      | group =>
        exact .onCurrent (fun ts => by rw [readOperand, hopen]; rfl)
          (.begin hbegins (readGroup_assembled (.inl (.group hopen))))
      | conditional =>
        exact .onCurrent (fun ts => by rw [readOperand, hopen]; rfl)
          (.begin hbegins (readConditional_assembled hopen next))
termination_by 8 * ahead.length + 2
decreasing_by all_goals simp only [List.length_cons]; omega

theorem readMore_assembled (floor : Strength) (left : Expr) (ahead : List Token) :
    Assembled rules gaps .resting .part (fun e => trees.OfExpr left → trees.OfExpr e)
      (rules.readMore floor left) ahead := by
  match ahead with
  | [] => exact .onNil (readMore.eq_def ..) (.done fun hleft => hleft)
  | [u] => exact .onLast (readMore.eq_def ..) (.done fun hleft => hleft)
  | u :: t :: next =>
    by_cases hfloor : floor < t.kind.strength
    · cases hjoin : rules.joining t.kind with
      | none =>
        refine .onNext (fun ts => ?_) (.done fun hleft => hleft)
        rw [readMore, if_pos hfloor, hjoin]
      | some joining =>
        refine .onNext (fun ts => ?_) (.accept (Token.Kind.isPlain_of_lt hfloor)
          (.andThen nofun (readJoined_assembled hjoin left next) fun whole _ =>
            (readMore_assembled floor whole _).imp fun e he hwhole hleft => he (hwhole hleft)))
        rw [readMore, if_pos hfloor, hjoin]
        rfl
    · refine .onNext (fun ts => ?_) (.done fun hleft => hleft)
      rw [readMore, if_neg hfloor]
termination_by 8 * ahead.length + 1
decreasing_by all_goals simp only [List.length_drop, List.length_cons]; omega

theorem readJoined_assembled {joining : Joining} {t : Token}
    (hjoin : rules.joining t.kind = some joining) (left : Expr) (next : List Token) :
    Assembled rules gaps .resting .part (fun e => trees.OfExpr left → trees.OfExpr e)
      (fun ts => rules.readJoined joining left t (ts.drop 1)) (t :: next) := by
  cases joining with
  | binary op =>
    simp only [readJoined]
    exact .map (.enter (.inl (.binary hjoin)) (readExpr_assembled t.kind.strength next))
      fun right hright hleft => trees.binary hjoin hleft hright
  | keep =>
    simp only [readJoined]
    exact .done fun hleft => hleft
  | complement =>
    simp only [readJoined]
    exact .done (trees.complement hjoin)
  | juxtapose =>
    refine .onCurrent (fun ts => ?_) (.map (.juxtapose hjoin (readExpr_assembled .call (t :: next)))
      fun right hright hleft => trees.juxtapose hjoin hleft hright)
    rw [readJoined]
    rfl
  | refuse =>
    simp only [readJoined]
    exact .refuseJoining hjoin
termination_by 8 * next.length + 12
decreasing_by
  · omega
  · simp only [List.length_cons]; omega

theorem readGroup_assembled {t : Token} {next : List Token}
    (hnext : rules.WantsOperand t.kind ∨ (Token.next next).kind ≠ .rbrace) :
    Assembled rules gaps .resting .part trees.OfExpr (fun ts => rules.readGroup (ts.drop 1))
      (t :: next) := by
  refine .onSight (fun ts _ => ?_) (.andThen nofun
    (.enter hnext (readExpr_assembled .lowest next)) fun value _ =>
      .expect .rparen (by decide) fun _ _ _ _ => .done fun hvalue => hvalue)
  simp only [readGroup, map_eq_andThen, List.drop_drop, Nat.add_comm]
termination_by 8 * next.length + 4
decreasing_by omega

theorem readConditional_assembled {t : Token} (hopen : rules.opening t.kind = some .conditional)
    (next : List Token) :
    Assembled rules gaps .resting .part trees.OfExpr
      (fun ts => rules.readConditional t (ts.drop 1)) (t :: next) := by
  refine .onSight (fun ts _ => ?_) (.expect .lparen (by decide) fun paren rest hrest hparen =>
    .andThen nofun (readGroup_assembled (.inl (.lparen hparen))) fun condition _ =>
      .andThen nofun (readBranch_assembled _) fun consequence _ =>
        .option .kwElse (by decide) (a := Expr.conditional t condition consequence none)
          (fun hconsequence hcondition =>
            trees.conditional hopen hcondition hconsequence nofun)
          fun otherwise others hothers => .map (readBranch_assembled _)
            (k := fun alternative => Expr.conditional t condition consequence (some alternative))
            fun alternative halternative hconsequence hcondition =>
              trees.conditional hopen hcondition hconsequence fun b hb =>
                Option.some.inj hb ▸ halternative)
  simp only [readConditional, List.drop_drop, Nat.add_assoc, Nat.reduceAdd]
  rfl
termination_by 8 * next.length + 7
decreasing_by
  all_goals
    have hlength := congrArg List.length hrest
    simp only [List.length_drop, List.length_cons] at hlength ⊢
  · omega
  · omega
  · have hlength' := congrArg List.length hothers
    simp only [List.length_drop, List.length_cons] at hlength'
    omega

theorem readBranch_assembled (ahead : List Token) :
    Assembled rules gaps .resting .part trees.OfBlock (fun ts => rules.readBranch (ts.drop 1))
      ahead := by
  by_cases hnext : (Token.next (ahead.drop 1)).kind = .lbrace
  · match ahead with
    | [] | [_] => cases hnext
    | u :: brace :: rest =>
      have hbrace : brace.kind = .lbrace := hnext
      refine .onNext (fun ts => ?_) (.map (.enclose hbrace (readBody_assembled rest))
        fun statements => trees.block hbrace)
      show rules.readBranch (brace :: ts) = _
      rw [readBranch, expect_cons hbrace, andThen_of_some rfl]
      simp only [map, shift, List.nil_append, ← Nat.add_assoc]
      rfl
  · refine .onSight (fun ts hts => ?_)
      (.missed (show Token.Kind.lbrace ≠ .rbrace by decide) (Token.next (ahead.drop 1)).kind)
    have heq := (hts.drop 1).next_eq (by decide)
    rw [readBranch, expect_of_ne (by rwa [heq]), heq]
    rfl
termination_by 8 * (ahead.length - 1) + 6
decreasing_by simp only [List.length_cons]; omega

theorem readBody_assembled (ahead : List Token) :
    Assembled rules gaps .block .part (fun statements => ∀ s ∈ statements, trees.OfStmt s)
      (fun ts => (rules.readBody ts).map some) ahead := by
  match ahead with
  | [] => exact .onNil (by rw [readBody]; rfl) (.leave (a := []) rfl (List.forall_mem_nil _))
  | t :: next =>
    by_cases hclose : t.kind = .rbrace
    · exact .onCurrent (fun ts => by rw [readBody, if_pos hclose]; rfl)
        (.close (a := []) hclose (List.forall_mem_nil _))
    by_cases heof : t.kind = .eof
    · exact .onCurrent (fun ts => by rw [readBody, if_neg hclose, if_pos heof]; rfl)
        (.leave (a := []) heof (List.forall_mem_nil _))
    · exact .onCurrent (fun ts => by rw [readBody, if_neg hclose, if_neg heof]; rfl)
        (.turn hclose (readStmt_assembled t next) (readBody_assembled _) forall_mem_toList_append)
termination_by 8 * ahead.length + 5
decreasing_by all_goals simp only [List.length_drop, List.length_cons]; omega

theorem readStmt_assembled (t : Token) (next : List Token) :
    Assembled rules gaps .fresh .whole trees.OfStmt (fun ts => rules.readStmt t (ts.drop 1))
      (t :: next) := by
  by_cases hlet : t.kind = .kwLet
  · simp only [readStmt, if_pos hlet]
    exact .begin (.inr (by rw [hlet]; decide)) (readBinding_assembled hlet next)
  by_cases hreturn : t.kind = .kwReturn
  · simp only [readStmt, if_neg hlet, if_pos hreturn]
    exact .begin (.inr (by rw [hreturn]; decide)) (readResult_assembled hreturn next)
  · refine .onCurrent (fun ts => ?_) (.andThen nofun (readExpr_assembled .lowest (t :: next))
      fun value _ => .separator (a := Stmt.expression t value) trees.expression _)
    simp only [readStmt, if_neg hlet, if_neg hreturn, List.drop_drop, List.drop_succ_cons,
      List.drop_zero]
termination_by 8 * next.length + 12
decreasing_by
  · omega
  · omega
  · simp only [List.length_cons]; omega

theorem readBinding_assembled {t : Token} (hlet : t.kind = .kwLet) (next : List Token) :
    Assembled rules gaps .resting .whole trees.OfStmt (fun ts => rules.readBinding t (ts.drop 1))
      (t :: next) := by
  refine .onSight (fun ts _ => ?_) (.expect .ident (by decide) fun name rest hrest hname =>
    .expect .assign (by decide) fun assign others hothers hassign =>
      .value (.inl (.assign hassign)) (readExpr_assembled .lowest others) fun value =>
        trees.binding hlet hname)
  have hplace (m : Nat) : 1 + (m + 2) = 2 + (m + 1) := by omega
  simp only [readBinding, List.drop_drop, Nat.reduceAdd, hplace]
termination_by 8 * next.length + 8
decreasing_by
  have hlength := congrArg List.length hrest
  have hlength' := congrArg List.length hothers
  simp only [List.length_drop, List.length_cons] at hlength hlength'
  omega

theorem readResult_assembled {t : Token} (hreturn : t.kind = .kwReturn) (next : List Token) :
    Assembled rules gaps .resting .whole trees.OfStmt (fun ts => rules.readResult t (ts.drop 1))
      (t :: next) := by
  have hnone : trees.OfStmt (.result t none) := trees.result hreturn nofun
  by_cases hstop : (Token.next next).kind = .semicolon
  · match next with
    | [] => cases hstop
    | stop :: rest =>
      have ht : stop.kind = .semicolon := hstop
      refine .onNext (fun ts => ?_) (.separate ht hnone)
      show rules.readResult t (stop :: ts) = _
      rw [readResult, Token.next_cons, if_pos ht]
  by_cases hends : (Token.next next).kind = .rbrace ∨ (Token.next next).kind = .eof
  · refine .onSight (fun ts hts => ?_) (.done hnone)
    have heq : Token.next (ts.drop 1) = Token.next next := (hts.drop 1).next_eq (by decide)
    rw [readResult, heq, if_neg hstop, if_pos hends]
    rfl
  · refine .onSight (fun ts hts => ?_) (.value (.inr (not_or.mp hends).1)
      (readExpr_assembled .lowest next) fun value _ => trees.result hreturn)
    have heq : Token.next (ts.drop 1) = Token.next next := (hts.drop 1).next_eq (by decide)
    simp only [readResult, heq, if_neg hstop, if_neg hends, List.drop_drop, Nat.add_comm 1]
termination_by 8 * next.length + 8
decreasing_by omega

end

/-- A token that opens nothing is no statement. -/
theorem readStmt_of_unopened {t : Token} (hopen : rules.opening t.kind = none)
    (hlet : t.kind ≠ .kwLet) (hreturn : t.kind ≠ .kwReturn) (next : List Token) :
    rules.readStmt t next = .fail (.noOpening t.kind) := by
  rw [readStmt, if_neg hlet, if_neg hreturn, readExpr, readOperand, hopen]
  rfl

/-- Programs are read statement by statement: what holds of a statement when it holds of the tokens
behind it holds of all tokens. -/
@[elab_as_elim]
theorem program_induction (rules : Rules) {motive : List Token → Prop} (nil : motive [])
    (ended : ∀ t next, t.kind = .eof → motive (t :: next))
    (turn : ∀ t next, t.kind ≠ .eof → motive (next.drop (rules.readStmt t next).moves) →
      motive (t :: next)) (ahead : List Token) : motive ahead := by
  induction hlen : ahead.length using Nat.strongRecOn generalizing ahead with
  | ind n ih =>
    cases ahead with
    | nil => exact nil
    | cons t next =>
      by_cases heof : t.kind = .eof
      · exact ended t next heof
      · have hlt : (next.drop (rules.readStmt t next).moves).length < n := by
          rw [← hlen, List.length_drop, List.length_cons]
          omega
        exact turn t next heof (ih _ hlt _ rfl)

end Rules

end Treewalk
