import Treewalk.Proofs.Lookahead
import Treewalk.Proofs.Grammar.Accepted

/-!
# Recovery at semicolons

A semicolon is a fence: whatever is wrong with the tokens up to it, the tokens behind it are read as
if they stood alone. There are two exceptions. A block that is left open takes in what is behind the
semicolon, and a statement whose value is missing, such as `let x = ;`, takes a second semicolon for
its own.

Readings in front of a fence are families `r : List Token → Reading _`, where `r rest` is what is
read with `rest` behind the semicolon. They are `Fenced`: a part never looks at `rest`, and ends
in front of the semicolon unless it fails. A whole statement may end on the semicolon itself.
-/

namespace Treewalk

namespace Reading

variable {α β : Type}

/-- No block was left open at the end of input. -/
def Closed (r : Reading α) : Prop := .unexpected .rbrace .eof ∉ r.diagnostics

theorem Closed.of_andThen {r : Reading (Option α)} {next : α → Nat → Reading (Option β)}
    (h : (r.andThen next).Closed) : r.Closed := by
  unfold Closed at h ⊢
  cases hvalue : r.value with
  | none => rwa [andThen_of_none hvalue] at h
  | some a =>
    rw [andThen_of_some hvalue] at h
    exact fun hmem => h (List.mem_append_left _ hmem)

theorem Closed.of_andThen_some {r : Reading (Option α)} {next : α → Nat → Reading (Option β)}
    {a : α} (h : (r.andThen next).Closed) (hvalue : r.value = some a) :
    (next a r.moves).Closed := by
  rw [andThen_of_some hvalue] at h
  exact fun hmem => h (List.mem_append_right _ hmem)

theorem Closed.of_followedBy {r : Reading (Option α)} {rest : Nat → Reading (List α)}
    (h : (r.followedBy rest).Closed) : r.Closed ∧ (rest r.moves).Closed :=
  ⟨fun hmem => h (List.mem_append_left _ hmem), fun hmem => h (List.mem_append_right _ hmem)⟩

/-- What was read in two parts, the second from where the first one ended. -/
def append (r s : Reading (List α)) : Reading (List α) :=
  ⟨r.value ++ s.value, r.moves + s.moves, r.diagnostics ++ s.diagnostics⟩

theorem done_append (s : Reading (List α)) : (done []).append s = s := by
  simp only [append, done, List.nil_append, Nat.zero_add]

theorem followedBy_congr {first : Reading (Option α)} {rest rest' : Nat → Reading (List α)}
    (h : rest first.moves = rest' first.moves) :
    first.followedBy rest = first.followedBy rest' := by
  simp only [followedBy, h]

theorem followedBy_append (first : Reading (Option α)) (rest : Nat → Reading (List α))
    (s : Reading (List α)) :
    (first.followedBy fun m => (rest m).append s) = (first.followedBy rest).append s := by
  simp only [followedBy, append, List.append_assoc, Nat.add_assoc]

end Reading

open Reading

/-! ## Readings in front of a fence -/

section

variable {α β : Type} {extent : Extent} {bound : Nat}

/-- The fence is `bound` tokens further on. What is read in front of it does not depend on what is
behind it. A part that is read ends in front of the fence. A whole statement may end on it, and then
what is behind it is looked at, but only to tell whether a second semicolon follows. -/
def Fenced (extent : Extent) (bound : Nat) (r : List Token → Reading (Option α)) : Prop :=
  (r []).Closed → (r []).moves ≤ bound ∧
    (∀ rest, (extent = .whole → (Token.next rest).kind ≠ .semicolon ∨ (r []).moves < bound) →
      r rest = r []) ∧
    (extent = .part → (r []).value ≠ none → (r []).moves < bound)

namespace Fenced

/-- What is read at once looks at nothing. -/
theorem const {r : Reading (Option α)} (hle : r.moves ≤ bound)
    (hlt : extent = .part → r.value ≠ none → r.moves < bound) : Fenced extent bound fun _ => r :=
  fun _ => ⟨hle, fun _ _ => rfl, hlt⟩

theorem fail (d : Diagnostic) :
    Fenced extent bound fun _ => (Reading.fail d : Reading (Option α)) :=
  const (Nat.zero_le _) fun _ hvalue => absurd rfl hvalue

theorem map {r : List Token → Reading (Option α)} (h : Fenced extent bound r) (f : α → β) :
    Fenced extent bound fun rest => (r rest).map (Option.map f) := by
  intro hclosed
  obtain ⟨hle, heq, hlt⟩ := h hclosed
  refine ⟨hle, fun rest hrest => congrArg _ (heq rest hrest), fun hpart hvalue => hlt hpart ?_⟩
  exact fun hnone => hvalue (congrArg (Option.map f) hnone)

theorem shift {r : List Token → Reading (Option α)} (h : Fenced extent bound r) (m : Nat) :
    Fenced extent (m + bound) fun rest => (r rest).shift m := by
  intro hclosed
  obtain ⟨hle, heq, hlt⟩ := h hclosed
  refine ⟨Nat.add_le_add_left hle m, fun rest hrest => congrArg _ (heq rest fun hwhole => ?_),
    fun hpart hvalue => Nat.add_lt_add_left (hlt hpart hvalue) m⟩
  exact (hrest hwhole).imp_right Nat.lt_of_add_lt_add_left

/-- A part of a statement is the same whatever is behind the fence. -/
theorem eq_of_part {r : List Token → Reading (Option α)} (h : Fenced .part bound r)
    (hclosed : (r []).Closed) (rest : List Token) : r rest = r [] :=
  (h hclosed).2.1 rest fun hwhole => by cases hwhole

/-- A part of a statement may be all of it. -/
theorem of_part {r : List Token → Reading (Option α)} (h : Fenced .part bound r) :
    Fenced extent bound r := by
  intro hclosed
  obtain ⟨hle, -, hlt⟩ := h hclosed
  exact ⟨hle, fun rest _ => h.eq_of_part hclosed rest, fun _ => hlt rfl⟩

/-- Reading on is fenced where both parts are. -/
theorem andThen {first : List Token → Reading (Option α)}
    {next : α → Nat → List Token → Reading (Option β)} (hfirst : Fenced .part bound first)
    (hnext : ∀ a, (first []).value = some a → (first []).moves < bound →
      Fenced extent (bound - (first []).moves) (next a (first []).moves)) :
    Fenced extent bound fun rest => (first rest).andThen fun a m => next a m rest := by
  intro hclosed
  obtain ⟨hle, -, hlt⟩ := hfirst hclosed.of_andThen
  have hsame := hfirst.eq_of_part hclosed.of_andThen
  cases hvalue : (first []).value with
  | none =>
    simp only [hsame, andThen_of_none hvalue]
    exact ⟨hle, fun _ _ => trivial, fun _ hne => absurd rfl hne⟩
  | some a =>
    have hin := hlt rfl (by rw [hvalue]; exact Option.some_ne_none a)
    obtain ⟨hle', heq', hlt'⟩ := hnext a hvalue hin (hclosed.of_andThen_some hvalue)
    simp only [hsame, andThen_of_some hvalue]
    refine ⟨by omega, fun rest hrest => ?_, fun hpart hne => ?_⟩
    · rw [heq' rest fun hwhole => (hrest hwhole).imp_right fun hlt => by omega]
    · have hin' := hlt' hpart hne
      omega

end Fenced

end

/-- A block that has nothing more to read is left open. -/
theorem Assembled.not_closed {rules : Rules} {gaps : Prop} {α : Type} {place : Place}
    {extent : Extent} {P : α → Prop} {read : List Token → Reading (Option α)} {ahead : List Token}
    (h : Assembled rules gaps place extent P read ahead) (hplace : place = .block)
    (hahead : ahead = []) : ¬(read ahead).Closed := by
  induction h with
  | onSight hread _ ih =>
    rw [hread _ rfl]
    exact ih hplace hahead
  | map _ _ ih => exact ih hplace hahead
  | andThen hne => exact absurd hplace hne
  | leave => exact fun hclosed => hclosed List.mem_cons_self
  | close | turn => cases hahead
  | _ => cases hplace

namespace Grammar

open Rules

variable {stop : Of .semicolon} {init : List Token}

/-- In front of a fence the position does not depend on what is behind it. -/
theorem drop_append_fence {m : Nat} (h : m ≤ init.length) (rest : List Token) :
    (init ++ stop.val :: rest).drop m = init.drop m ++ stop.val :: rest :=
  List.drop_append_of_le_length h

/-- Behind the fence there is only what is behind it. -/
theorem drop_behind_fence (init rest : List Token) :
    (init ++ stop.val :: rest).drop (init.length + 1) = rest := by
  rw [List.drop_length_add_append, List.drop_succ_cons, List.drop_zero]

/-- The next token is the same whatever is behind the fence. -/
theorem next_append_fence (init rest : List Token) :
    Token.next (init ++ stop.val :: rest) = Token.next (init ++ [stop.val]) := by
  cases init <;> rfl

/-- A token that is no semicolon stands in front of the fence. -/
theorem ne_nil_of_fence {t : Token} {next : List Token} (h : t :: next = init ++ [stop.val])
    (ht : t.kind ≠ .semicolon) : init ≠ [] := by
  rintro rfl
  exact ht ((List.cons.inj h).1 ▸ stop.property)

theorem exists_of_fence {t : Token} {next : List Token} (h : t :: next = init ++ [stop.val])
    (hinit : init ≠ []) : ∃ init', init = t :: init' ∧ next = init' ++ [stop.val] := by
  cases init with
  | nil => exact absurd rfl hinit
  | cons u init' =>
    obtain ⟨rfl, hnext⟩ := List.cons.inj h
    exact ⟨init', rfl, hnext⟩

/-- The value of a binding or of a result, with the semicolon behind it. Where the value is missing
the fence itself is given up, and the semicolon is looked for behind it. -/
theorem value_fenced {α β : Type} {read : List Token → Reading (Option α)} (k : Option α → β)
    (h : Fenced .part init.length fun rest => read (init ++ stop.val :: rest)) :
    Fenced .whole (init.length + 1) fun rest =>
      let value := (read (init ++ stop.val :: rest)).shift 1
      ⟨some (k value.value),
        value.moves + separator ((init ++ stop.val :: rest).drop value.moves),
        value.diagnostics⟩ := by
  intro hclosed
  obtain ⟨hle, -, -⟩ := h hclosed
  obtain ⟨⟨value, m, diagnostics⟩, hread⟩ : ∃ r, ∀ rest, read (init ++ stop.val :: rest) = r :=
    ⟨_, h.eq_of_part hclosed⟩
  simp only [hread, moves_shift] at hle ⊢
  rcases Nat.lt_or_eq_of_le hle with hlt | rfl
  · have hin : 1 + m ≤ init.length := by omega
    simp only [separator, drop_append_fence hin, next_append_fence (init.drop (1 + m))]
    refine ⟨?_, fun _ _ => trivial, fun hpart => by cases hpart⟩
    split <;> omega
  · rw [Nat.add_comm 1]
    simp only [drop_behind_fence]
    refine ⟨Nat.le_refl _, fun rest hrest => ?_, fun hpart => by cases hpart⟩
    have hnot : (Token.next rest).kind ≠ .semicolon :=
      (hrest trivial).resolve_right (Nat.lt_irrefl _)
    rw [separator, if_neg hnot]
    rfl

/-- A statement of a block and all that follows it. A statement that ends on the semicolon leaves
the block open. -/
theorem turn_fenced {α : Type} {f : List Token → Reading (Option α)}
    {k : List Token → Reading (List α)}
    (hfirst : Fenced .whole init.length fun rest => f (init ++ stop.val :: rest))
    (hopen : (f (init ++ [stop.val])).moves = init.length → ¬(k []).Closed)
    (hothers : ∀ init', (init ++ [stop.val]).drop ((f (init ++ [stop.val])).moves + 1) =
        init' ++ [stop.val] →
      Fenced .part init'.length fun rest => (k (init' ++ stop.val :: rest)).map some) :
    Fenced .part init.length fun rest => ((f (init ++ stop.val :: rest)).followedBy fun m =>
      k ((init ++ stop.val :: rest).drop (m + 1))).map some := by
  intro hclosed
  obtain ⟨hclosed, hclosed'⟩ : (f (init ++ [stop.val])).Closed ∧
      (k ((init ++ [stop.val]).drop ((f (init ++ [stop.val])).moves + 1))).Closed :=
    ⟨fun hmem => hclosed (List.mem_append_left _ hmem),
      fun hmem => hclosed (List.mem_append_right _ hmem)⟩
  obtain ⟨hle, heq, -⟩ := hfirst hclosed
  have hlt : (f (init ++ [stop.val])).moves < init.length := by
    refine Nat.lt_of_le_of_ne hle fun hend => hopen hend ?_
    rwa [hend, drop_behind_fence] at hclosed'
  obtain ⟨first, hstmt⟩ : ∃ r, ∀ rest, f (init ++ stop.val :: rest) = r :=
    ⟨_, fun rest => heq rest fun _ => .inr hlt⟩
  simp only [hstmt] at hlt hothers hclosed' ⊢
  simp only [followedBy, drop_append_fence hlt] at hclosed' ⊢
  have hfenced := hothers _ (drop_append_fence hlt [])
  obtain ⟨-, -, hlt'⟩ := hfenced hclosed'
  obtain ⟨others, hrest⟩ : ∃ r, ∀ rest, k (init.drop (first.moves + 1) ++ stop.val :: rest) = r :=
    ⟨_, fun rest => map_some_injective (hfenced.eq_of_part hclosed' rest)⟩
  have hin := hlt' rfl (Option.some_ne_none _)
  simp only [hrest, moves_map, List.length_drop] at hin ⊢
  exact ⟨by omega, fun _ _ => trivial, fun _ _ => by omega⟩

/-- The rules of the language begin nothing with a semicolon. -/
theorem kind_ne_semicolon_of_begins {kind : Token.Kind} (h : standard.Begins kind) :
    kind ≠ .semicolon := by
  rintro rfl
  exact h.elim (fun hopen => hopen rfl) fun hplain => hplain.2.2.1 rfl

end Grammar

open Grammar

/-- **What is assembled in front of a semicolon is fenced by it**, under the rules of the language.
-/
theorem Assembled.fenced (stop : Of .semicolon) {gaps : Prop} {α : Type} {place : Place}
    {extent : Extent} {P : α → Prop} {read : List Token → Reading (Option α)} {ahead : List Token}
    (h : Assembled .standard gaps place extent P read ahead) {init : List Token}
    (hahead : ahead = init ++ [stop.val]) (hinit : place = .resting → init ≠ []) :
    Fenced extent init.length fun rest => read (init ++ stop.val :: rest) := by
  induction h generalizing init with
  | @onSight _ place _ _ read f _ hread _ ih =>
    have hsight : place.sight ≤ init.length + 1 := by
      cases place with
      | fresh | block => exact Nat.le_add_left 1 _
      | resting => exact Nat.succ_le_succ (List.length_pos_iff.mpr (hinit rfl))
    have hsame (rest : List Token) :
        read (init ++ stop.val :: rest) = f (init ++ stop.val :: rest) := by
      have hagree : Agree (init.length + 1) (init ++ [stop.val]) (init ++ stop.val :: rest) :=
        .append init rfl
      exact hread _ (hahead ▸ hagree.mono hsight)
    simp only [hsame]
    exact ih hahead hinit
  | map _ _ ih => exact (ih hahead hinit).map _
  | andThen _ _ _ ih ihk =>
    subst hahead
    refine (ih rfl hinit).andThen fun a ha hlt => ?_
    have hin := Nat.le_of_lt hlt
    simp only [drop_append_fence hin]
    have hrest := ihk a ha (drop_append_fence hin []) fun _ => by
      rw [← List.length_pos_iff, List.length_drop]
      omega
    rwa [List.length_drop] at hrest
  | done =>
    exact .const (Nat.zero_le _) fun _ _ => List.length_pos_iff.mpr (hinit rfl)
  | missed | unopened | invalid => exact .fail _
  | refuseOpening | refuseJoining => exact .const (Nat.zero_le _) fun _ hne => absurd rfl hne
  | accept hplain _ ih =>
    obtain ⟨init', rfl, hrest⟩ := exists_of_fence hahead (hinit rfl)
    rw [List.length_cons, Nat.add_comm]
    exact (ih hrest fun _ => ne_nil_of_fence hrest hplain.2.2.1).shift 1
  | enclose hbrace _ ih =>
    obtain ⟨init', rfl, hrest⟩ := exists_of_fence hahead (hinit rfl)
    obtain ⟨init', rfl, hbody⟩ := exists_of_fence hrest
      (ne_nil_of_fence hrest (by rw [hbrace]; decide))
    rw [List.length_cons, List.length_cons, Nat.add_assoc, Nat.add_comm]
    exact ((ih hbody nofun).shift 2).of_part
  | enter _ _ ih =>
    obtain ⟨init', rfl, hrest⟩ := exists_of_fence hahead (hinit rfl)
    rw [List.length_cons, Nat.add_comm]
    exact (ih hrest nofun).shift 1
  | operand hopen =>
    refine .const (Nat.zero_le _) fun _ _ => List.length_pos_iff.mpr ?_
    rintro rfl
    refine hopen ?_
    rw [hahead, List.nil_append, Token.next_cons, stop.property]
    rfl
  | begin hbegins _ ih =>
    exact ih hahead fun _ => ne_nil_of_fence hahead (kind_ne_semicolon_of_begins hbegins)
  | juxtapose _ _ ih => exact ih hahead nofun
  | separate => exact .const (List.length_pos_iff.mpr (hinit rfl)) nofun
  | value _ _ _ ih =>
    obtain ⟨init', rfl, hrest⟩ := exists_of_fence hahead (hinit rfl)
    exact value_fenced _ (ih hrest nofun)
  | close hclose =>
    exact .const (Nat.zero_le _) fun _ _ => List.length_pos_iff.mpr
      (ne_nil_of_fence hahead (by rw [hclose]; decide))
  | leave => exact fun hclosed => absurd List.mem_cons_self hclosed
  | turn _ _ hk _ ih ihk =>
    rw [hahead] at hk ihk
    refine turn_fenced (ih hahead nofun) (fun hend hclosed => ?_) fun _ hrest => ihk hrest nofun
    rw [hend, drop_behind_fence] at hk
    exact hk.not_closed rfl rfl hclosed

namespace Grammar

open Rules

theorem readStmt_fenced (stop : Of .semicolon) {init : List Token} {t : Token}
    (h : init ++ [stop.val] = t :: (init ++ [stop.val]).drop 1) :
    Fenced .whole init.length fun rest =>
      standard.readStmt t ((init ++ stop.val :: rest).drop 1) :=
  (readStmt_assembled (.trivial standard) t _).fenced stop h.symm fun hplace => by cases hplace

/-- **Nothing in front of a semicolon touches what is behind it**, as long as no block is left open
and no second semicolon follows. -/
theorem readProgram_append_fence (stop : Of .semicolon) {rest : List Token}
    (hrest : (Token.next rest).kind ≠ .semicolon) (init : List Token)
    (heof : ∀ t ∈ init, t.kind ≠ .eof)
    (hclosed : (standard.readProgram (init ++ [stop.val])).Closed) :
    standard.readProgram (init ++ stop.val :: rest) =
      (standard.readProgram (init ++ [stop.val])).append (standard.readProgram rest) := by
  obtain ⟨t, ht, hsplit⟩ : ∃ t : Token, t.kind ≠ .eof ∧ ∀ rest,
      init ++ stop.val :: rest = t :: (init ++ stop.val :: rest).drop 1 := by
    cases init with
    | nil => exact ⟨stop.val, by rw [stop.property]; decide, fun _ => rfl⟩
    | cons t init => exact ⟨t, heof t List.mem_cons_self, fun _ => rfl⟩
  have hturn : ∀ rest, standard.readProgram (init ++ stop.val :: rest) =
      (standard.readStmt t ((init ++ stop.val :: rest).drop 1)).followedBy fun m =>
        standard.readProgram ((init ++ stop.val :: rest).drop (m + 1)) := by
    intro rest
    rw [hsplit, readProgram, if_neg ht]
    rfl
  rw [hturn] at hclosed ⊢
  rw [hturn]
  obtain ⟨hfirst, hothers⟩ := hclosed.of_followedBy
  obtain ⟨hle, heq, -⟩ := readStmt_fenced stop (hsplit []) hfirst
  have hstmt : standard.readStmt t ((init ++ stop.val :: rest).drop 1) =
      standard.readStmt t ((init ++ [stop.val]).drop 1) := heq rest fun _ => .inl hrest
  rw [hstmt, ← followedBy_append]
  refine followedBy_congr ?_
  generalize (standard.readStmt t ((init ++ [stop.val]).drop 1)).moves = m at hothers hle ⊢
  rcases Nat.lt_or_eq_of_le hle with hlt | rfl
  · simp only [drop_append_fence hlt] at hothers ⊢
    have heof' : ∀ t ∈ init.drop (m + 1), t.kind ≠ .eof :=
      fun t ht => heof t (List.mem_of_mem_drop ht)
    exact readProgram_append_fence stop hrest (init.drop (m + 1)) heof' hothers
  · rw [drop_behind_fence, drop_behind_fence, readProgram, done_append]
termination_by init.length
decreasing_by simp only [List.length_drop]; omega

/-- The same of any two parts, the first of which is empty or ends with a semicolon. -/
theorem readProgram_append {a b : List Token} (ha : ∀ t ∈ a, t.kind ≠ .eof)
    (hends : ∀ t ∈ a.getLast?, t.kind = .semicolon) (hclosed : (standard.readProgram a).Closed)
    (hb : ∀ t ∈ b.head?, t.kind ≠ .semicolon) :
    standard.readProgram (a ++ b) = (standard.readProgram a).append (standard.readProgram b) := by
  have hnext : (Token.next b).kind ≠ .semicolon := by
    cases b with
    | nil => exact nofun
    | cons t rest => exact hb t rfl
  rcases List.eq_nil_or_concat a with rfl | ⟨init, last, rfl⟩
  · rw [List.nil_append, readProgram, done_append]
  · rw [List.concat_eq_append] at ha hends hclosed ⊢
    have hlast : last.kind = .semicolon := hends last List.getLast?_concat
    rw [List.append_assoc]
    exact readProgram_append_fence ⟨last, hlast⟩ hnext init
      (fun t ht => ha t (List.mem_append_left _ ht)) hclosed

/-- **Error recovery is isolated by semicolons.** However wrong the first part is, the two parts are
read together as each is read alone, with the statements and the diagnostics of the first one first.
-/
theorem program_append_of_semicolon (a b : List Token) (ha : ∀ t ∈ a, t.kind ≠ .eof)
    (hends : ∀ t ∈ a.getLast?, t.kind = .semicolon)
    (hclosed : .unexpected .rbrace .eof ∉ (Parser.ofTokens a).program.2.diagnostics)
    (hb : ∀ t ∈ b.head?, t.kind ≠ .semicolon) :
    (Parser.ofTokens (a ++ b)).program.1.statements =
        (Parser.ofTokens a).program.1.statements ++ (Parser.ofTokens b).program.1.statements ∧
      (Parser.ofTokens (a ++ b)).program.2.diagnostics =
        (Parser.ofTokens a).program.2.diagnostics ++ (Parser.ofTokens b).program.2.diagnostics := by
  have hread := readProgram_append ha hends hclosed hb
  exact ⟨congrArg value hread, congrArg diagnostics hread⟩

/-- In `let x = ; + 1;` the value is missing and there is a stray operator, and `y z` behind it is
two statements all the same. -/
theorem program_append_of_missing_value :
    let a : List Token := [⟨.kwLet, "let"⟩, ⟨.ident, "x"⟩, ⟨.assign, "="⟩, ⟨.semicolon, ";"⟩,
      ⟨.plus, "+"⟩, ⟨.int, "1"⟩, ⟨.semicolon, ";"⟩]
    let b : List Token := [⟨.ident, "y"⟩, ⟨.ident, "z"⟩]
    (Parser.ofTokens a).program.2.diagnostics = [.noOpening .semicolon, .noOpening .plus] ∧
      (Parser.ofTokens (a ++ b)).program.1.statements =
        (Parser.ofTokens a).program.1.statements ++ (Parser.ofTokens b).program.1.statements ∧
      (Parser.ofTokens (a ++ b)).program.2.diagnostics =
        (Parser.ofTokens a).program.2.diagnostics ++ (Parser.ofTokens b).program.2.diagnostics := by
  intro a b
  have h : (Parser.ofTokens a).program.2.diagnostics =
      [.noOpening .semicolon, .noOpening .plus] := by decide +kernel
  exact ⟨h, program_append_of_semicolon a b (by decide) (by decide) (by rw [h]; decide) (by decide)⟩

end Grammar

end Treewalk
