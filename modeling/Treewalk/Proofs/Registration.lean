import Treewalk.Proofs.Comparison

/-!
# What a registration can change

A rule is looked up by the kind of a token that is there: an opening rule by the current one, a
joining rule by the next one, and the latter only where that kind binds tighter than some strength.
So a registration for a kind that the supply never delivers changes nothing, and neither does a
joining rule for a kind of lowest strength, however many tokens of it there are.

This compares two runs. Two hosts are `Alike` if they differ in no rule that is ever looked up, and
what is done with a host is `Indifferent` if from alike hosts it yields the same and leaves alike
hosts. The readers are, to every depth, whatever the guests among the rules do: a script sees
tokens, diagnostics and what the readers yield, and no rule.
-/

namespace Treewalk

/-! ## Alike hosts -/

/-- Is there a pull at which the supply delivers a token of this kind? -/
def Token.Kind.DeliveredBy (kind : Token.Kind) (supply : Nat → Option Token) : Prop :=
  ∃ n, ((supply n).getD .eof).kind = kind

/-- A list delivers its tokens and, behind them, the end of input. -/
theorem Token.Kind.deliveredBy_getElem? {kind : Token.Kind} {supply : List Token} :
    kind.DeliveredBy (supply[·]?) ↔ kind = .eof ∨ ∃ t ∈ supply, t.kind = kind := by
  constructor
  · rintro ⟨n, hkind⟩
    cases hn : supply[n]? with
    | none =>
      simp only [hn] at hkind
      exact .inl hkind.symm
    | some t =>
      simp only [hn] at hkind
      exact .inr ⟨t, List.mem_of_getElem? hn, hkind⟩
  · rintro (rfl | ⟨t, ht, rfl⟩)
    · refine ⟨supply.length, ?_⟩
      simp only [List.getElem?_eq_none (Nat.le_refl _)]
      rfl
    · obtain ⟨n, hn⟩ := List.getElem?_of_mem ht
      refine ⟨n, ?_⟩
      simp only [hn]
      rfl

namespace Host

variable {g : Guests} {seen : Token.Kind → Prop} {a b : Host g}

/-- Two hosts stand at the same place, and their rules agree on the kinds seen there and further on.
A kind of lowest strength joins nothing, so its joining rule does not count. -/
structure Alike (seen : Token.Kind → Prop) (a b : Host g) : Prop where
  opening : ∀ kind, seen kind → a.opening kind = b.opening kind
  joining : ∀ kind, seen kind → kind.strength ≠ .lowest → a.joining kind = b.joining kind
  ahead : a.ahead = b.ahead
  pulled : a.pulled = b.pulled
  diagnostics : a.diagnostics = b.diagnostics
  delivered : ∀ kind, kind.DeliveredBy a.ahead → seen kind

namespace Alike

theorem refl {host : Host g} (h : ∀ kind, kind.DeliveredBy host.ahead → seen kind) :
    Alike seen host host :=
  ⟨fun _ _ => rfl, fun _ _ _ => rfl, rfl, rfl, rfl, h⟩

theorem current_eq (h : Alike seen a b) : a.current = b.current := by
  unfold current
  rw [h.ahead]

theorem upcoming_eq (h : Alike seen a b) : a.upcoming = b.upcoming := by
  unfold upcoming
  rw [h.ahead]

theorem observe_eq (h : Alike seen a b) (reply : Parser.Reply) :
    a.observe reply = b.observe reply := by
  simp only [observe, h.current_eq, h.upcoming_eq, h.diagnostics, h.pulled]

theorem openingHere_eq (h : Alike seen a b) : a.openingHere = b.openingHere := by
  have hrule := h.opening a.current.kind (h.delivered _ ⟨0, rfl⟩)
  simp only [openingHere, hrule, ← h.current_eq, h.ahead]

theorem joiningNext_eq (h : Alike seen a b) (floor : Strength) :
    a.joiningNext floor = b.joiningNext floor := by
  simp only [joiningNext, ← h.upcoming_eq]
  split
  next hfloor =>
    -- a strength above some other is not the lowest
    refine h.joining _ (h.delivered _ ⟨1, rfl⟩) fun hlowest => ?_
    exact Strength.not_lt_lowest floor (hlowest ▸ hfloor)
  next => rfl

theorem sight_eq (h : Alike seen a b) : a.sight = b.sight := by
  simp only [sight, h.current_eq, h.upcoming_eq, h.diagnostics, h.openingHere_eq,
    funext h.joiningNext_eq]

theorem advance (h : Alike seen a b) : Alike seen a.advance b.advance :=
  { h with
    ahead := by simp only [Host.advance, h.ahead]
    pulled := by simp only [Host.advance, h.pulled]
    delivered := fun kind ⟨n, hn⟩ => h.delivered kind ⟨n + 1, hn⟩ }

theorem record (h : Alike seen a b) (found : List Diagnostic) :
    Alike seen (a.record found) (b.record found) :=
  { h with diagnostics := by simp only [Host.record, h.diagnostics] }

theorem registerOpening (h : Alike seen a b) (kind : Token.Kind) (rule : Opening ⊕ g.Opener) :
    Alike seen (a.registerOpening kind rule) (b.registerOpening kind rule) :=
  { h with opening := fun k hk => by simp only [Host.registerOpening, h.opening k hk] }

theorem registerJoining (h : Alike seen a b) (kind : Token.Kind) (rule : Joining ⊕ g.Joiner) :
    Alike seen (a.registerJoining kind rule) (b.registerJoining kind rule) :=
  { h with
    joining := fun k hk hstrength => by
      simp only [Host.registerJoining, h.joining k hk hstrength] }

/-- An opening rule for a kind that is not seen makes no difference. -/
theorem registerOpening_right (h : Alike seen a b) {kind : Token.Kind} (hkind : ¬seen kind)
    (rule : Opening ⊕ g.Opener) : Alike seen a (b.registerOpening kind rule) := by
  refine { h with opening := fun k hk => ?_ }
  have hne : k ≠ kind := fun heq => hkind (heq ▸ hk)
  rw [h.opening k hk]
  exact (if_neg hne).symm

/-- Nor does a joining rule for a kind that is not seen or joins nothing. -/
theorem registerJoining_right (h : Alike seen a b) {kind : Token.Kind}
    (hkind : seen kind → kind.strength = .lowest) (rule : Joining ⊕ g.Joiner) :
    Alike seen a (b.registerJoining kind rule) := by
  refine { h with joining := fun k hk hstrength => ?_ }
  have hne : k ≠ kind := by
    rintro rfl
    exact hstrength (hkind hk)
  rw [h.joining k hk hstrength]
  exact (if_neg hne).symm

end Alike

end Host

/-! ## Indifferent runs -/

/-- Two runs compare if from alike hosts they yield the same and leave alike hosts, or nothing from
either. -/
def Comparison.alike (g : Guests) (seen : Token.Kind → Prop) : Comparison g where
  Rel {α} r r' := ∀ a b : Host g, a.Alike seen b →
    Option.Rel (fun s s' : α × Host g => s.1 = s'.1 ∧ s.2.Alike seen s'.2) (r a) (r' b)
  done _ := fun _ _ hab => .some ⟨rfl, hab⟩
  tell _ found := fun _ _ hab => .some ⟨rfl, hab.record found⟩
  onSight h := by
    intro a b hab
    simp only [hab.sight_eq]
    exact h _ a b hab
  afterMove h := fun _ _ hab => h _ _ hab.advance
  bind {α β r r' f f'} h hf := by
    intro a b hab
    have hfirst := h a b hab
    simp only [Run.bind]
    generalize r a = s, r' b = s' at hfirst
    cases hfirst with
    | none => exact .none
    | some hs =>
      simp only [Option.bind_some, hs.1]
      exact hf _ _ _ hs.2
  registerOpening kind rule h := fun _ _ hab => h _ _ (hab.registerOpening kind rule)
  registerJoining kind rule h := fun _ _ hab => h _ _ (hab.registerJoining kind rule)

/-- From alike hosts the run does the same. -/
def Run.Indifferent {g : Guests} {α : Type} (seen : Token.Kind → Prop) (run : Run g α) : Prop :=
  (Comparison.alike g seen).Rel run run

/-- The readers are indifferent to every depth, whatever the guests do. -/
theorem Comparison.related_alike {g : Guests} {seen : Token.Kind → Prop} (depth : Nat) :
    (alike g seen).Related (Readers.deep g depth) (Readers.deep g depth) := by
  induction depth with
  | zero => exact ⟨fun _ _ _ _ => .none, fun _ _ _ _ _ => .none, fun _ _ _ => .none,
      fun _ _ _ => .none, fun _ _ _ _ => .none⟩
  | succ depth ih => exact ih.next

/-! ## Commands -/

namespace Host

variable {g : Guests} {seen : Token.Kind → Prop} {a b : Host g}

theorem obey_indifferent (depth : Nat) (command : Command g) :
    (obey depth command).Indifferent seen :=
  (Comparison.alike g seen).obey (Comparison.related_alike depth) command

/-- Of alike hosts that obey the same commands the same is seen. -/
theorem Alike.observations_eq (h : Alike seen a b) (depth : Nat) (commands : List (Command g)) :
    observations depth commands a = observations depth commands b := by
  induction commands generalizing a b with
  | nil => rfl
  | cons command rest ih =>
    have hobey := obey_indifferent depth command a b h
    rw [observations, observations]
    generalize obey depth command a = r, obey depth command b = r' at hobey
    cases hobey with
    | none => rfl
    | some hr => simp only [Option.bind_some, ih hr.2, hr.2.observe_eq, hr.1]

/-- A registration that is never looked up: an opening rule for a kind that the supply never
delivers, or a joining rule for such a kind or for one of lowest strength. -/
def Command.IsIdle (supply : Nat → Option Token) : Command g → Prop
  | .registerOpening kind _ => ¬kind.DeliveredBy supply
  | .registerJoining kind _ => ¬kind.DeliveredBy supply ∨ kind.strength = .lowest
  | .program | .expression _ => False

/-- An idle registration leaves the host as it was, for all that counts. -/
theorem obey_of_isIdle {supply : Nat → Option Token} {command : Command g}
    (hidle : command.IsIdle supply) (depth : Nat) {host : Host g}
    (h : host.Alike (·.DeliveredBy supply) host) :
    ∃ registered, obey depth command host = some (.registered, registered) ∧
      host.Alike (·.DeliveredBy supply) registered := by
  cases command with
  | program => exact hidle.elim
  | expression => exact hidle.elim
  | registerOpening kind rule => exact ⟨_, rfl, h.registerOpening_right hidle rule⟩
  | registerJoining kind rule =>
    exact ⟨_, rfl, h.registerJoining_right (fun hseen => hidle.resolve_left (· hseen)) rule⟩

/-- What is seen of the other commands does not change where an idle registration is inserted. -/
theorem observations_insert {supply : Nat → Option Token} {inserted : Command g}
    (hidle : inserted.IsIdle supply) (depth : Nat) (before after : List (Command g)) {host : Host g}
    (h : host.Alike (·.DeliveredBy supply) host) :
    (observations depth (before ++ inserted :: after) host).map (·.eraseIdx before.length) =
      observations depth (before ++ after) host := by
  induction before generalizing host with
  | nil =>
    -- the rest is obeyed by two hosts that are only alike
    obtain ⟨registered, hobey, halike⟩ := obey_of_isIdle hidle depth h
    simp only [List.nil_append, observations, hobey, Option.bind_some, Option.map_map,
      List.length_nil]
    rw [halike.observations_eq]
    exact Option.map_id_apply
  | cons command before ih =>
    -- up to the insertion there is one host, and it stays alike to itself
    have hself := obey_indifferent depth command host host h
    simp only [List.cons_append, observations, List.length_cons]
    generalize obey depth command host = r at hself
    cases hself with
    | none => rfl
    | some hr =>
      simp only [Option.bind_some, ← ih hr.2, Option.map_map]
      rfl

/-- **A registration affects its own kind only.** Let rules from outside do whatever such rules can
do, let the supply answer anything, and let a host obey any commands. An opening rule for a kind
that the supply never delivers, registered anywhere among them, changes nothing that is seen of the
others: no reply, neither of the two tokens in view, no diagnostic and no number of pulls. The same
goes for a joining rule for such a kind, or for a kind of lowest strength on any supply. It changes
not even how deep the readers have to call each other. And all this goes for the parser, which has
no rules from outside. -/
theorem registrations_confined :
    (∀ (g : Guests) (supply : Nat → Option Token) (before after : List (Command g))
      (inserted : Command g), inserted.IsIdle supply → ∀ depth,
        (observations depth (before ++ inserted :: after) (ofSupply g supply)).map
            (·.eraseIdx before.length) =
          observations depth (before ++ after) (ofSupply g supply)) ∧
    ∀ (supply : List Token) (before after : List Parser.Command) (inserted : Parser.Command),
      (Command.ofParser .none inserted).IsIdle (supply[·]?) →
        ((Parser.ofTokens supply).observations (before ++ inserted :: after)).eraseIdx
            before.length =
          (Parser.ofTokens supply).observations (before ++ after) := by
  have hosts (g : Guests) (supply : Nat → Option Token) (before after : List (Command g))
      (inserted : Command g) (hidle : inserted.IsIdle supply) (depth : Nat) :=
    have hstart : (ofSupply g supply).Alike (·.DeliveredBy supply) (ofSupply g supply) :=
      .refl fun _ h => h
    observations_insert hidle depth before after hstart
  refine ⟨hosts, fun supply before after inserted hidle => ?_⟩
  -- deep enough for both sequences, the host without guests is the parser
  obtain ⟨least, hwith⟩ :=
    exists_observations_eq .none (before ++ inserted :: after) (Parser.ofTokens supply)
  obtain ⟨least', hwithout⟩ :=
    exists_observations_eq .none (before ++ after) (Parser.ofTokens supply)
  have hsame := hosts .none (supply[·]?) (before.map (.ofParser .none))
    (after.map (.ofParser .none)) (.ofParser .none inserted) hidle (max least least')
  have hparser : ofSupply .none (supply[·]?) = ofParser .none (Parser.ofTokens supply) := rfl
  rw [← List.map_cons, ← List.map_append, ← List.map_append, List.length_map, hparser,
    hwith _ (by omega), hwithout _ (by omega)] at hsame
  exact Option.some.inj hsame

/-- A guest that reads the current token as a name, and one that has an expression read where it
stands and puts it in the place of the one before it. -/
def nameGuest : Guests where
  Opener := Unit
  Joiner := Unit
  opens _ := .look fun t _ => .answer (some (.reference (.ofToken t)))
  joins _ _ := .expression .lowest .answer

/-- In `fn + fn` a guest reads `fn` as a name. Nothing changes where another guest is to join
expressions over `fn`: the statement is read to its end as before. Without guests, on a supply of
nothing but `fn`, a rule for `fn` to join and a rule for commas to open expressions change
nothing. -/
theorem registrations_confined_keyword :
    (let host := ofSupply nameGuest ([⟨.kwFn, "fn"⟩, ⟨.plus, "+"⟩, ⟨.kwFn, "fn"⟩][·]?);
      (observations 5 [.registerOpening .kwFn (.inr ()), .registerJoining .kwFn (.inr ()), .program]
          host).map (·.eraseIdx 1) =
        observations 5 [.registerOpening .kwFn (.inr ()), .program] host ∧
      (observations 5 [.registerOpening .kwFn (.inr ()), .program] host).map
          (·.map fun seen => (seen.current, seen.diagnostics, seen.pulled)) =
        some [(⟨.kwFn, "fn"⟩, [], 2), (.eof, [], 5)]) ∧
    let parser := Parser.ofTokens [⟨.kwFn, "fn"⟩, ⟨.kwFn, "fn"⟩];
    (parser.observations [.registerOpening .kwFn (.atom .name), .registerJoining .kwFn .keep,
        .program]).eraseIdx 1 =
      parser.observations [.registerOpening .kwFn (.atom .name), .program] ∧
    (parser.observations [.expression .lowest, .registerOpening .comma (.atom .truth),
        .program]).eraseIdx 1 =
      parser.observations [.expression .lowest, .program] := by
  have hcomma : ¬Token.Kind.comma.DeliveredBy ([⟨.kwFn, "fn"⟩, ⟨.kwFn, "fn"⟩][·]?) := by
    rw [Token.Kind.deliveredBy_getElem?]
    decide
  exact ⟨⟨registrations_confined.1 nameGuest _ [.registerOpening .kwFn (.inr ())] [.program]
        (.registerJoining .kwFn (.inr ())) (.inr rfl) 5, by decide +kernel⟩,
      registrations_confined.2 _ [.registerOpening .kwFn (.atom .name)] [.program]
        (.registerJoining .kwFn .keep) (.inr rfl),
      registrations_confined.2 _ [.expression .lowest] [.program]
        (.registerOpening .comma (.atom .truth)) hcomma⟩

end Host

end Treewalk
