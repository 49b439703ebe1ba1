import Mathlib.Data.List.Chain
import Treewalk.Proofs.Accounting

/-!
# Braces and unclosed blocks

A brace that is passed over belongs to a block, or it stands where an expression should begin and
has a diagnostic of its own. So the braces of a program and its diagnostics are in balance: reading
rises by one at an opening brace and falls by one at a closing brace, and what it has risen at the
end is what the diagnostics account for, those for blocks that were left open among them.

A missing operand is where the balance is lost. In `if (x) { 1 + }` the closing brace is taken for
the operand, and the block is reported as unclosed although it is not. Where no closing brace
directly follows a token that wants an operand, no statement takes the closing brace of the block
around it, and a program with balanced braces has no unclosed block.
-/

namespace Treewalk

/-! ## Rising and falling -/

/-- How far a token of this kind takes the nesting of braces up. -/
def Token.Kind.rise : Token.Kind → Int
  | .lbrace => 1
  | .rbrace => -1
  | _ => 0

/-- How far tokens in a row take the nesting of braces up. -/
def Token.rise : List Token → Int
  | [] => 0
  | t :: rest => t.kind.rise + rise rest

/-- The diagnostic for a block that the input ends in. -/
def Diagnostic.unclosed : Diagnostic := .unexpected .rbrace .eof

/-- What a diagnostic accounts for: the closing brace that is missing, or the brace that opens no
expression. -/
def Diagnostic.rise (d : Diagnostic) : Int :=
  if d = unclosed then 1
  else
    match d with
    | .noOpening kind => kind.rise
    | .unexpected _ _ | .invalidInteger _ => 0

/-- What diagnostics account for together. -/
def Diagnostic.riseAll : List Diagnostic → Int
  | [] => 0
  | d :: rest => d.rise + riseAll rest

namespace Token

theorem rise_nil : rise [] = 0 := rfl

theorem rise_cons (t : Token) (tokens : List Token) :
    rise (t :: tokens) = t.kind.rise + rise tokens := rfl

theorem rise_append (first second : List Token) :
    rise (first ++ second) = rise first + rise second := by
  induction first with
  | nil => rw [List.nil_append, rise_nil, Int.zero_add]
  | cons t rest ih => rw [List.cons_append, rise_cons, rise_cons, ih, Int.add_assoc]

/-- The nesting after a first stretch of tokens and after another one. -/
theorem rise_take_add (tokens : List Token) (m n : Nat) :
    rise (tokens.take (m + n)) = rise (tokens.take m) + rise ((tokens.drop m).take n) := by
  rw [List.take_add, rise_append]

theorem rise_eq_zero {tokens : List Token} (h : ∀ t ∈ tokens, t.kind.rise = 0) :
    rise tokens = 0 := by
  induction tokens with
  | nil => rfl
  | cons t rest ih =>
    rw [rise_cons, h t List.mem_cons_self, ih fun u hu => h u (List.mem_cons_of_mem _ hu)]
    rfl

/-- Tokens rise by the opening braces among them and fall by the closing ones. -/
theorem rise_eq_count (tokens : List Token) :
    rise tokens = (tokens.map kind).count .lbrace - (tokens.map kind).count .rbrace := by
  induction tokens with
  | nil => rfl
  | cons t rest ih =>
    rw [rise_cons, ih, List.map_cons, List.count_cons, List.count_cons]
    cases t.kind <;> simp only [Kind.rise, beq_iff_eq, reduceCtorEq, if_false, if_true] <;> omega

end Token

namespace Diagnostic

theorem riseAll_nil : riseAll [] = 0 := rfl

theorem riseAll_cons (d : Diagnostic) (diagnostics : List Diagnostic) :
    riseAll (d :: diagnostics) = d.rise + riseAll diagnostics := rfl

theorem riseAll_append (first second : List Diagnostic) :
    riseAll (first ++ second) = riseAll first + riseAll second := by
  induction first with
  | nil => rw [List.nil_append, riseAll_nil, Int.zero_add]
  | cons d rest ih => rw [List.cons_append, riseAll_cons, riseAll_cons, ih, Int.add_assoc]

theorem riseAll_eq_zero {diagnostics : List Diagnostic} (h : ∀ d ∈ diagnostics, d.rise = 0) :
    riseAll diagnostics = 0 := by
  induction diagnostics with
  | nil => rfl
  | cons d rest ih =>
    rw [riseAll_cons, h d List.mem_cons_self, ih fun e he => h e (List.mem_cons_of_mem _ he)]
    rfl

/-- The three kinds of diagnostic that account for a brace. -/
theorem riseAll_eq_count (diagnostics : List Diagnostic) :
    riseAll diagnostics = diagnostics.count unclosed + diagnostics.count (.noOpening .lbrace) -
      diagnostics.count (.noOpening .rbrace) := by
  induction diagnostics with
  | nil => rfl
  | cons d rest ih =>
    rw [riseAll_cons, ih, List.count_cons, List.count_cons, List.count_cons]
    have hrise : d.rise = ((if d == unclosed then 1 else 0 : Nat) : Int) +
        (if d == noOpening .lbrace then 1 else 0 : Nat) -
          (if d == noOpening .rbrace then 1 else 0 : Nat) := by
      cases d with
      | noOpening kind => cases kind <;> rfl
      | invalidInteger literal => rfl
      | unexpected expected found =>
        by_cases h : unexpected expected found = unclosed
        · rw [h]
          rfl
        · simp [rise, h]
    omega

end Diagnostic

/-! ## Readings in balance -/

namespace Reading

variable {α β : Type} {blocks : Int} {passed : Nat} {tokens : List Token}

/-- The braces passed over and the diagnostics are in balance. Of the `tokens`, `passed` are behind
the position before the reading starts, and `blocks` have been opened that it closes. -/
structure Braced (blocks : Int) (passed : Nat) (tokens : List Token) (r : Reading α) : Prop where
  rise_eq : blocks + Token.rise (tokens.take (passed + r.moves)) = Diagnostic.riseAll r.diagnostics
  /-- A block is left open only where the supply has been used up. -/
  spent : (∀ t ∈ tokens, t.kind ≠ .eof) → Diagnostic.unclosed ∈ r.diagnostics →
    tokens.length ≤ passed + r.moves
  /-- Unless a closing brace is taken for an operand, those passed over all close a block. -/
  nested : .noOpening .rbrace ∉ r.diagnostics → ∀ n, n ≤ passed + r.moves →
    0 ≤ blocks + Token.rise (tokens.take n)

namespace Braced

/-- Where there are no braces and no diagnostics for braces. -/
theorem level {r : Reading α}
    (htokens : ∀ t ∈ tokens.take (passed + r.moves), t.kind.rise = 0)
    (hdiagnostics : ∀ d ∈ r.diagnostics, d.rise = 0) : r.Braced 0 passed tokens := by
  refine ⟨?_, fun _ hmem => ?_, fun _ n hn => ?_⟩
  · rw [Token.rise_eq_zero htokens, Diagnostic.riseAll_eq_zero hdiagnostics]
    rfl
  · exact absurd (hdiagnostics _ hmem) (by decide)
  · have hzero : Token.rise (tokens.take n) = 0 :=
      Token.rise_eq_zero fun t ht => htokens t (List.take_subset_take_left _ hn ht)
    omega

theorem done (value : α) : (done value).Braced 0 0 tokens :=
  level (fun t ht => by cases ht) (List.forall_mem_nil _)

theorem map {r : Reading α} (h : r.Braced blocks passed tokens) (f : α → β) :
    (r.map f).Braced blocks passed tokens :=
  ⟨h.rise_eq, h.spent, h.nested⟩

theorem of_map {r : Reading α} {f : α → β} (h : (r.map f).Braced blocks passed tokens) :
    r.Braced blocks passed tokens :=
  ⟨h.rise_eq, h.spent, h.nested⟩

theorem shift {r : Reading α} {n : Nat} (h : r.Braced blocks (passed + n) tokens) :
    (r.shift n).Braced blocks passed tokens := by
  obtain ⟨hrise, hspent, hnested⟩ := h
  rw [Nat.add_assoc] at hrise hspent hnested
  exact ⟨hrise, hspent, hnested⟩

/-- A token may stand in front, with a block more or less to close behind it if it is a brace. -/
theorem step {r : Reading α} {t : Token} (h : r.Braced (blocks + t.kind.rise) passed tokens)
    (hblocks : 0 ≤ blocks) : r.Braced blocks (passed + 1) (t :: tokens) := by
  obtain ⟨hrise, hspent, hnested⟩ := h
  refine ⟨?_, fun heof hmem => ?_, fun hkept n hn => ?_⟩
  · rw [Nat.add_right_comm, List.take_succ_cons, Token.rise_cons]
    omega
  · have hlength := hspent (fun u hu => heof u (List.mem_cons_of_mem _ hu)) hmem
    rw [List.length_cons]
    omega
  · cases n with
    | zero =>
      rw [List.take_zero, Token.rise_nil]
      omega
    | succ n =>
      have hrest := hnested hkept n (by omega)
      rw [List.take_succ_cons, Token.rise_cons]
      omega

theorem cons {r : Reading α} {t : Token} (h : r.Braced 0 passed tokens) (ht : t.kind.rise = 0) :
    r.Braced 0 (passed + 1) (t :: tokens) := by
  refine step ?_ (Int.le_refl 0)
  rw [ht]
  exact h

/-- **Reading on keeps the balance.** -/
theorem andThen {r : Reading (Option α)} {next : α → Nat → Reading (Option β)}
    (h : r.Braced blocks passed tokens)
    (hnext : ∀ a, r.value = some a →
      (next a r.moves).Braced 0 0 (tokens.drop (passed + r.moves))) :
    (r.andThen next).Braced blocks passed tokens := by
  obtain ⟨hrise, hspent, hnested⟩ := h
  cases hvalue : r.value with
  | none =>
    rw [andThen_of_none hvalue]
    exact ⟨hrise, hspent, hnested⟩
  | some a =>
    obtain ⟨hrise', hspent', hnested'⟩ := hnext a hvalue
    rw [Nat.zero_add] at hrise' hspent' hnested'
    rw [andThen_of_some hvalue]
    refine ⟨?_, fun heof hmem => ?_, fun hkept n hn => ?_⟩
    · rw [← Nat.add_assoc, Token.rise_take_add, Diagnostic.riseAll_append]
      omega
    · rcases List.mem_append.mp hmem with hmem | hmem
      · have hlength := hspent heof hmem
        simp only
        omega
      · have hlength := hspent' (fun t ht => heof t (List.mem_of_mem_drop ht)) hmem
        rw [List.length_drop] at hlength
        simp only
        omega
    · obtain ⟨hfirst, hsecond⟩ := not_or.mp (mt List.mem_append.mpr hkept)
      rcases Nat.le_total n (passed + r.moves) with hle | hle
      · exact hnested hfirst n hle
      · obtain ⟨j, rfl⟩ := Nat.exists_eq_add_of_le hle
        have hat := hnested hfirst _ (Nat.le_refl _)
        have hbehind := hnested' hsecond j (by simp only at hn; omega)
        rw [Token.rise_take_add]
        omega

/-- A statement and what follows it, from the next token on. -/
theorem followedBy {t : Token} {next : List Token} {first : Reading (Option α)}
    {rest : Nat → Reading (List α)} (h : first.Braced 0 1 (t :: next))
    (hrest : (rest first.moves).Braced blocks passed (next.drop first.moves)) :
    (first.followedBy rest).Braced blocks passed (t :: next) := by
  obtain ⟨hrise, hspent, hnested⟩ := h
  obtain ⟨hrise', hspent', hnested'⟩ := hrest
  have hdrop : (t :: next).drop (1 + first.moves) = next.drop first.moves := by
    rw [Nat.add_comm, List.drop_succ_cons]
  have hmoves : passed + (first.followedBy rest).moves =
      1 + first.moves + (passed + (rest first.moves).moves) := by
    rw [moves_followedBy]
    omega
  refine ⟨?_, fun heof hmem => ?_, fun hkept n hn => ?_⟩
  · rw [hmoves, Token.rise_take_add, hdrop, diagnostics_followedBy, Diagnostic.riseAll_append]
    omega
  · rw [hmoves]
    rcases List.mem_append.mp hmem with hmem | hmem
    · have hlength := hspent heof hmem
      omega
    · have hrest : ∀ u ∈ next.drop first.moves, u.kind ≠ .eof :=
        fun u hu => heof u (List.mem_cons_of_mem _ (List.mem_of_mem_drop hu))
      have hlength := hspent' hrest hmem
      rw [List.length_drop] at hlength
      rw [List.length_cons]
      omega
  · obtain ⟨hfirst, hsecond⟩ := not_or.mp (mt List.mem_append.mpr hkept)
    have hstart := hnested' hsecond 0 (Nat.zero_le _)
    rw [List.take_zero, Token.rise_nil] at hstart
    rcases Nat.le_total n (1 + first.moves) with hle | hle
    · have hat := hnested hfirst n hle
      omega
    · obtain ⟨j, rfl⟩ := Nat.exists_eq_add_of_le hle
      have hat := hnested hfirst _ (Nat.le_refl _)
      have hbehind := hnested' hsecond j (by omega)
      rw [Token.rise_take_add, hdrop]
      omega

end Braced

end Reading

open Reading

/-- A semicolon is no brace. -/
theorem rise_of_mem_separator {next : List Token} {t : Token}
    (h : t ∈ next.take (separator next)) : t.kind.rise = 0 := by
  cases next with
  | nil => cases h
  | cons u rest =>
    unfold separator at h
    split at h
    · rename_i hkind
      rw [List.take_succ_cons, List.take_zero] at h
      rw [List.mem_singleton.mp h, show u.kind = .semicolon from hkind]
      rfl
    · cases h

/-- A semicolon may stand behind. -/
theorem Reading.Braced.separator {α β : Type} {passed : Nat} {tokens : List Token} {r : Reading α}
    (h : r.Braced 0 passed tokens) (value : β) :
    (⟨value, r.moves + separator (tokens.drop (passed + r.moves)), r.diagnostics⟩ :
      Reading β).Braced 0 passed tokens := by
  obtain ⟨hrise, hspent, hnested⟩ := h
  have hlevel : ∀ n, n ≤ Treewalk.separator (tokens.drop (passed + r.moves)) →
      Token.rise ((tokens.drop (passed + r.moves)).take n) = 0 := fun n hn =>
    Token.rise_eq_zero fun t ht => rise_of_mem_separator (List.take_subset_take_left _ hn ht)
  refine ⟨?_, fun heof hmem => ?_, fun hkept n hn => ?_⟩ <;> simp only [← Nat.add_assoc] at *
  · rw [Token.rise_take_add, hlevel _ (Nat.le_refl _)]
    omega
  · have hlength := hspent heof hmem
    omega
  · rcases Nat.le_total n (passed + r.moves) with hle | hle
    · exact hnested hkept n hle
    · obtain ⟨j, rfl⟩ := Nat.exists_eq_add_of_le hle
      have hat := hnested hkept _ (Nat.le_refl _)
      rw [Token.rise_take_add, hlevel j (by omega)]
      omega

namespace Grammar

open Rules

/-! ## What is assembled is in balance -/

theorem rise_of_isPlain {kind : Token.Kind} (h : kind.IsPlain) : kind.rise = 0 := by
  cases kind with
  | lbrace => exact absurd rfl h.1
  | rbrace => exact absurd rfl h.2.1
  | _ => rfl

theorem rise_of_opening {kind : Token.Kind} (h : standard.opening kind ≠ none) :
    kind.rise = 0 := by
  cases kind with
  | lbrace | rbrace => exact absurd rfl h
  | _ => rfl

theorem rise_of_begins {kind : Token.Kind} (h : standard.Begins kind) : kind.rise = 0 :=
  h.elim rise_of_opening rise_of_isPlain

/-- A brace where an operand should be has its diagnostic. -/
theorem fail_noOpening_braced {α : Type} (ahead : List Token) :
    (fail (.noOpening (Token.next ahead).kind) : Reading (Option α)).Braced 0 1 ahead := by
  cases ahead with
  | nil => exact .level (fun t ht => by cases ht) fun d hd => by rw [List.mem_singleton.mp hd]; rfl
  | cons t next =>
    rw [Token.next_cons]
    refine ⟨?_, fun _ hmem => ?_, fun hkept n hn => ?_⟩
    · show 0 + (t.kind.rise + 0) = Diagnostic.rise (.noOpening t.kind) + 0
      simp [Diagnostic.rise, Diagnostic.unclosed]
    · cases List.mem_singleton.mp hmem
    · have hne : t.kind ≠ .rbrace :=
        fun hkind => hkept (by rw [hkind]; exact List.mem_singleton_self _)
      have hrise : 0 ≤ t.kind.rise := by
        generalize t.kind = kind at hne
        cases kind with
        | rbrace => exact absurd rfl hne
        | _ => decide
      cases n with
      | zero => exact Int.le_refl 0
      | succ n =>
        obtain rfl : n = 0 := by
          simp only [Reading.fail] at hn
          omega
        rw [List.take_succ_cons, List.take_zero, Token.rise_cons, Token.rise_nil]
        omega

/-- A block that the input ends in has its diagnostic. -/
theorem unclosed_braced {α : Type} (value : α) {ahead : List Token}
    (heof : (Token.next ahead).kind = .eof) :
    (⟨value, 0, [.unclosed]⟩ : Reading α).Braced 1 1 ahead := by
  have hlevel : ∀ n ≤ 1, Token.rise (ahead.take n) = 0 := fun n hn =>
    Token.rise_eq_zero fun u hu => by
      cases ahead with
      | nil =>
        rw [List.take_nil] at hu
        cases hu
      | cons t next =>
        rw [List.mem_singleton.mp (List.take_subset_take_left _ hn hu)]
        exact heof ▸ rfl
  refine ⟨?_, fun hall _ => ?_, fun _ n hn => ?_⟩
  · show 1 + Token.rise (ahead.take 1) = 1
    rw [hlevel 1 (Nat.le_refl 1)]
    rfl
  · cases ahead with
    | nil => exact Nat.zero_le _
    | cons t next => exact absurd heof (hall t List.mem_cons_self)
  · rw [hlevel n hn]
    decide

/-- A token that is an operand, or should be, is no brace. -/
theorem braced_of_opening {α : Type} {ahead : List Token}
    (h : standard.opening (Token.next ahead).kind ≠ none) {r : Reading α} (hmoves : r.moves = 0)
    (hdiagnostics : ∀ d ∈ r.diagnostics, d.rise = 0) : r.Braced 0 1 ahead := by
  refine .level (fun u hu => ?_) hdiagnostics
  rw [hmoves] at hu
  cases ahead with
  | nil => cases hu
  | cons t next =>
    rw [List.mem_singleton.mp hu]
    exact rise_of_opening h

end Grammar

open Grammar

/-- A reading in balance. Where something has been read, its braces do not count; in a block, the
brace that opened it does. -/
def Place.Balances {α : Type} (place : Place) (ahead : List Token) (r : Reading α) : Prop :=
  match place with
  | .fresh => r.Braced 0 1 ahead
  | .resting => r.Braced 0 0 (ahead.drop 1)
  | .block => r.Braced 1 1 ahead

namespace Place.Balances

variable {α β : Type} {place : Place} {ahead : List Token}

theorem map {r : Reading α} (h : place.Balances ahead r) (f : α → β) :
    place.Balances ahead (r.map f) := by
  cases place <;> exact Braced.map h f

theorem andThen {r : Reading (Option α)} {next : α → Nat → Reading (Option β)}
    (hplace : place ≠ .block) (h : place.Balances ahead r)
    (hnext : ∀ a, r.value = some a → resting.Balances (ahead.drop r.moves) (next a r.moves)) :
    place.Balances ahead (r.andThen next) := by
  have hrest (a : α) (ha : r.value = some a) := hnext a ha
  simp only [Balances, List.drop_drop] at hrest
  cases place with
  | fresh => exact Braced.andThen h fun a ha => Nat.add_comm _ 1 ▸ hrest a ha
  | resting =>
    refine Braced.andThen h fun a ha => ?_
    rw [List.drop_drop, Nat.zero_add, Nat.add_comm]
    exact hrest a ha
  | block => exact absurd rfl hplace

end Place.Balances

/-- **What is assembled is in balance** under the rules of the language. -/
theorem Assembled.balances {gaps : Prop} {α : Type} {place : Place} {extent : Extent}
    {P : α → Prop} {read : List Token → Reading (Option α)} {ahead : List Token}
    (h : Assembled .standard gaps place extent P read ahead) :
    place.Balances ahead (read ahead) := by
  induction h with
  | onSight hread _ ih =>
    rw [hread _ rfl]
    exact ih
  | map _ _ ih => exact ih.map _
  | andThen hplace _ _ ih ihk => exact ih.andThen hplace ihk
  | done | refuseJoining => exact .done _
  | missed hexpected =>
    refine .level (fun u hu => by cases hu) fun d hd => ?_
    rw [List.mem_singleton.mp hd]
    exact if_neg fun heq => hexpected (Diagnostic.unexpected.inj heq).1
  | accept hplain _ ih => exact .shift (.cons ih (rise_of_isPlain hplain))
  | enclose hbrace _ ih =>
    exact .shift (.step (by rw [hbrace]; exact ih) (Int.le_refl 0))
  | enter _ _ ih => exact .shift ih
  | unopened => exact fail_noOpening_braced _
  | operand hopen => exact braced_of_opening hopen rfl (List.forall_mem_nil _)
  | invalid hopen =>
    refine braced_of_opening hopen rfl fun d hd => ?_
    rw [List.mem_singleton.mp hd]
    rfl
  | refuseOpening hopen =>
    exact braced_of_opening (by simp [hopen]) rfl (List.forall_mem_nil _)
  | begin hbegins _ ih => exact .cons ih (rise_of_begins hbegins)
  | juxtapose hjoin =>
    obtain ⟨op, -, hop⟩ := Option.map_eq_some_iff.mp hjoin
    cases hop
  | separate hkind =>
    refine .level (fun u hu => ?_) (List.forall_mem_nil _)
    rw [List.mem_singleton.mp hu, hkind]
    rfl
  | @value _ _ _ _ f k t next _ _ _ ih =>
    have hread : ((f next).shift 1).Braced 0 0 next := .shift ih
    have hvalue := hread.separator (some (k (f next).value))
    rw [Nat.zero_add] at hvalue
    exact hvalue
  | close hclose => exact .step (by rw [hclose]; exact .done _) (by decide)
  | leave heof => exact unclosed_braced _ heof
  | turn _ _ _ _ ih ihk => exact Braced.map (Braced.followedBy ih ihk.of_map) some

namespace Grammar

open Rules

theorem readStmt_braced (t : Token) (next : List Token) :
    (standard.readStmt t next).Braced 0 1 (t :: next) :=
  (readStmt_assembled (.trivial standard) t next).balances

/-- **A program is in balance**: its braces, and the diagnostics that account for braces. -/
theorem readProgram_braced (ahead : List Token) :
    (standard.readProgram ahead).Braced 0 0 ahead := by
  induction ahead using standard.program_induction with
  | nil =>
    rw [readProgram]
    exact .done []
  | ended t next heof =>
    rw [readProgram, if_pos heof]
    exact .done []
  | turn t next heof ih =>
    rw [readProgram, if_neg heof]
    exact (readStmt_braced t next).followedBy ih

theorem rise_eq_riseAll {tokens : List Token} (heof : ∀ t ∈ tokens, t.kind ≠ .eof) :
    Token.rise tokens = Diagnostic.riseAll (standard.readProgram tokens).diagnostics := by
  have hbalance := (readProgram_braced tokens).rise_eq
  have hall : tokens.length ≤ (standard.readProgram tokens).moves :=
    List.drop_eq_nil_iff.mp (standard.drop_readProgram tokens heof)
  rw [Nat.zero_add, List.take_of_length_le hall] at hbalance
  omega

/-! ## Where no operand is missing in front of a closing brace -/

end Grammar

/-- The kinds behind which an operand has to come. -/
def Token.Kind.wantsOperand : Token.Kind → Bool
  | .assign | .lparen | .bang | .plus | .minus | .asterisk | .slash => true
  | .lt | .gt | .eq | .notEq => true
  | _ => false

/-- No closing brace directly follows a token that wants an operand. -/
def Token.Supplied (tokens : List Token) : Prop :=
  tokens.IsChain fun t u => t.kind.wantsOperand = true → u.kind ≠ .rbrace
deriving Decidable

theorem Token.Supplied.next_ne {t : Token} {next : List Token} (h : Supplied (t :: next))
    (ht : t.kind.wantsOperand = true) : (Token.next next).kind ≠ .rbrace := by
  cases next with
  | nil => decide
  | cons u rest => exact (List.isChain_cons_cons.mp h).1 ht

/-- No closing brace was taken for an operand. -/
def Reading.Spares {α : Type} (r : Reading α) : Prop := .noOpening .rbrace ∉ r.diagnostics

namespace Reading.Spares

variable {α β : Type}

theorem map {r : Reading α} (h : r.Spares) (f : α → β) : (r.map f).Spares := h

theorem andThen {r : Reading (Option α)} {next : α → Nat → Reading (Option β)} (h : r.Spares)
    (hnext : ∀ a, r.value = some a → (next a r.moves).Spares) : (r.andThen next).Spares := by
  unfold Spares at *
  cases hvalue : r.value with
  | none => rwa [andThen_of_none hvalue]
  | some a =>
    rw [andThen_of_some hvalue]
    exact fun hmem => (List.mem_append.mp hmem).elim h (hnext a hvalue)

theorem followedBy {first : Reading (Option α)} {rest : Nat → Reading (List α)} (h : first.Spares)
    (hrest : (rest first.moves).Spares) : (first.followedBy rest).Spares :=
  fun hmem => (List.mem_append.mp hmem).elim h hrest

theorem fail {d : Diagnostic} (h : d ≠ .noOpening .rbrace) :
    (fail d : Reading (Option α)).Spares :=
  fun hmem => h (List.mem_singleton.mp hmem).symm

end Reading.Spares

namespace Grammar

open Rules

/-- Under the rules of the language the kinds that want an operand are those of the list. -/
theorem wantsOperand_eq_true {kind : Token.Kind} (h : standard.WantsOperand kind) :
    kind.wantsOperand = true := by
  cases h with
  | unary hopen | group hopen =>
    cases kind with
    | bang | minus | lparen => rfl
    | _ => cases hopen
  | binary hjoin =>
    cases kind with
    | plus | minus | asterisk | slash | lt | gt | eq | notEq => rfl
    | _ => cases hjoin
  | lparen hkind | assign hkind =>
    rw [hkind]
    rfl

end Grammar

/-- **What is assembled takes no closing brace for an operand** where all operands are supplied. -/
theorem Assembled.spares {gaps : Prop} {α : Type} {place : Place} {extent : Extent}
    {P : α → Prop} {read : List Token → Reading (Option α)} {ahead : List Token}
    (h : Assembled .standard gaps place extent P read ahead) (hsupplied : Token.Supplied ahead)
    (hfirst : place = .fresh → (Token.next ahead).kind ≠ .rbrace) : (read ahead).Spares := by
  induction h with
  | onSight hread _ ih =>
    rw [hread _ rfl]
    exact ih hsupplied hfirst
  | map _ _ ih => exact ih hsupplied hfirst
  | andThen _ _ _ ih ihk =>
    exact (ih hsupplied hfirst).andThen fun a ha => ihk a ha (hsupplied.drop _) nofun
  | done | operand | refuseOpening | refuseJoining | separate | close => exact List.not_mem_nil
  | missed | invalid => exact .fail nofun
  | accept _ _ ih => exact ih hsupplied.tail nofun
  | enclose _ _ ih => exact ih (hsupplied.drop 2) nofun
  | enter hwants _ ih | value hwants _ _ ih =>
    refine ih hsupplied.tail fun _ => ?_
    exact hwants.elim (fun hwants => hsupplied.next_ne (Grammar.wantsOperand_eq_true hwants)) id
  | unopened => exact .fail fun heq => hfirst rfl (Diagnostic.noOpening.inj heq)
  | begin _ _ ih => exact ih hsupplied nofun
  | juxtapose hjoin =>
    obtain ⟨op, -, hop⟩ := Option.map_eq_some_iff.mp hjoin
    cases hop
  | leave => exact fun hmem => by cases List.mem_singleton.mp hmem
  | turn hclose _ _ _ ih ihk =>
    exact .map (.followedBy (ih hsupplied fun _ => hclose) (ihk (hsupplied.drop _) nofun)) some

namespace Grammar

open Rules

theorem readStmt_spares (t : Token) (next : List Token) (h : Token.Supplied (t :: next))
    (hfirst : t.kind ≠ .rbrace) : (standard.readStmt t next).Spares :=
  (readStmt_assembled (.trivial standard) t next).spares h fun _ => hfirst

/-! ## Programs -/

/-- A statement leaves no block open where the tokens from it on do not rise. -/
theorem readStmt_closed {t : Token} {next : List Token} (heof : ∀ u ∈ t :: next, u.kind ≠ .eof)
    (h : Token.Supplied (t :: next)) (hrise : Token.rise (t :: next) ≤ 0) :
    Diagnostic.unclosed ∉ (standard.readStmt t next).diagnostics := by
  by_cases hclose : t.kind = .rbrace
  · -- a closing brace is no statement
    have hstmt : standard.readStmt t next = .fail (.noOpening t.kind) := by
      refine readStmt_of_unopened ?_ ?_ ?_ next <;> rw [hclose]
      exacts [rfl, nofun, nofun]
    rw [hstmt]
    exact fun hmem => nomatch List.mem_singleton.mp hmem
  · intro hmem
    obtain ⟨hbalance, hspent, -⟩ := readStmt_braced t next
    -- the block takes in all there is, and nothing is taken from it
    rw [List.take_of_length_le (hspent heof hmem), Diagnostic.riseAll_eq_count] at hbalance
    have hopen := List.count_pos_iff.mpr hmem
    have hkept := List.count_eq_zero.mpr (readStmt_spares t next h hclose)
    omega

/-- **Balanced braces leave no block open**, unless an operand is missing in front of one. The
tokens stand behind others that have risen by `depth`. -/
theorem readProgram_closed (depth : Int) (ahead : List Token) (heof : ∀ t ∈ ahead, t.kind ≠ .eof)
    (h : Token.Supplied ahead) (hnested : ∀ n, 0 ≤ depth + Token.rise (ahead.take n))
    (hend : depth + Token.rise ahead = 0) :
    Diagnostic.unclosed ∉ (standard.readProgram ahead).diagnostics := by
  induction ahead using standard.program_induction generalizing depth with
  | nil =>
    rw [readProgram]
    exact List.not_mem_nil
  | ended t next hended => exact absurd hended (heof t List.mem_cons_self)
  | turn t next ht ih =>
    have hstart := hnested 0
    rw [List.take_zero, Token.rise_nil] at hstart
    have hfirst := readStmt_closed heof h (by omega)
    have hdrop : (t :: next).drop (1 + (standard.readStmt t next).moves) =
        next.drop (standard.readStmt t next).moves := by
      rw [Nat.add_comm, List.drop_succ_cons]
    have hothers := ih
      (depth + Token.rise ((t :: next).take (1 + (standard.readStmt t next).moves)))
      (fun u hu => heof u (List.mem_cons_of_mem _ (List.mem_of_mem_drop hu))) (h.tail.drop _)
      (fun n => by
        have hn := hnested (1 + (standard.readStmt t next).moves + n)
        rw [Token.rise_take_add, hdrop] at hn
        omega)
      (by
        rw [Int.add_assoc, ← hdrop, ← Token.rise_append, List.take_append_drop]
        exact hend)
    rw [readProgram, if_neg ht, diagnostics_followedBy]
    exact fun hmem => (List.mem_append.mp hmem).elim hfirst hothers

end Grammar

/-- From the start on there are never more closing braces than opening ones, and in the end there
are as many. -/
def Token.Balanced (tokens : List Token) : Prop :=
  (∀ n ≤ tokens.length,
    ((tokens.take n).map kind).count .rbrace ≤ ((tokens.take n).map kind).count .lbrace) ∧
  (tokens.map kind).count .lbrace = (tokens.map kind).count .rbrace
deriving Decidable

theorem Token.Balanced.rise_eq {tokens : List Token} (h : Balanced tokens) : rise tokens = 0 := by
  have hcount := h.2
  rw [rise_eq_count]
  omega

theorem Token.Balanced.rise_take {tokens : List Token} (h : Balanced tokens) (n : Nat) :
    0 ≤ rise (tokens.take n) := by
  rcases Nat.le_total n tokens.length with hle | hle
  · have hcount := h.1 n hle
    rw [rise_eq_count]
    omega
  · have hall : rise (tokens.take n) = 0 := by
      rw [List.take_of_length_le hle, h.rise_eq]
    exact Int.le_of_eq hall.symm

namespace Grammar

open Rules

/-- **When a block is reported as unclosed.** Every brace of a program is one of a block or has a
diagnostic of its own. So where the braces are balanced, a block is reported as unclosed exactly if
more closing braces than opening ones stand where an expression should begin. There is none if no
closing brace directly follows a token that wants an operand, and then no statement takes the
closing brace of the block around it, malformed or not. -/
theorem unclosed_accounted (tokens : List Token) (heof : ∀ t ∈ tokens, t.kind ≠ .eof) :
    let diagnostics := (Parser.ofTokens tokens).program.2.diagnostics
    (diagnostics.count .unclosed + diagnostics.count (.noOpening .lbrace) +
        (tokens.map Token.kind).count .rbrace =
      diagnostics.count (.noOpening .rbrace) + (tokens.map Token.kind).count .lbrace) ∧
    (Token.Balanced tokens → (.unclosed ∈ diagnostics ↔
      diagnostics.count (.noOpening .lbrace) < diagnostics.count (.noOpening .rbrace))) ∧
    (Token.Supplied tokens →
      (Token.Balanced tokens → .unclosed ∉ diagnostics) ∧
      ∀ t next, t :: next <:+ tokens → t.kind ≠ .rbrace →
        ∀ n ≤ (standard.readStmt t next).moves + 1,
          (((t :: next).take n).map Token.kind).count .rbrace ≤
            (((t :: next).take n).map Token.kind).count .lbrace) := by
  intro diagnostics
  have hbalance : Token.rise tokens = Diagnostic.riseAll diagnostics := rise_eq_riseAll heof
  rw [Token.rise_eq_count, Diagnostic.riseAll_eq_count] at hbalance
  refine ⟨by omega, fun hbalanced => ?_, fun hsupplied => ⟨fun hbalanced => ?_, ?_⟩⟩
  · have hcount := hbalanced.2
    rw [← List.count_pos_iff]
    omega
  · refine readProgram_closed 0 tokens heof hsupplied (fun n => ?_) ?_
    · rw [Int.zero_add]
      exact hbalanced.rise_take n
    · rw [Int.zero_add]
      exact hbalanced.rise_eq
  · intro t next hsuffix hclose n hn
    have hkept := readStmt_spares t next (hsupplied.suffix hsuffix) hclose
    have hrise := (readStmt_braced t next).nested hkept n (by omega)
    rw [Token.rise_eq_count] at hrise
    omega

/-- The tokens of `if (x) { let 1 + ; y }`. -/
def malformedBody : List Token :=
  [⟨.kwIf, "if"⟩, ⟨.lparen, "("⟩, ⟨.ident, "x"⟩, ⟨.rparen, ")"⟩, ⟨.lbrace, "\x7b"⟩, ⟨.kwLet, "let"⟩,
    ⟨.int, "1"⟩, ⟨.plus, "+"⟩, ⟨.semicolon, ";"⟩, ⟨.ident, "y"⟩, ⟨.rbrace, "\x7d"⟩]

/-- The tokens of `if (x) { 1 + }`. -/
def missingOperand : List Token :=
  [⟨.kwIf, "if"⟩, ⟨.lparen, "("⟩, ⟨.ident, "x"⟩, ⟨.rparen, ")"⟩, ⟨.lbrace, "\x7b"⟩, ⟨.int, "1"⟩,
    ⟨.plus, "+"⟩, ⟨.rbrace, "\x7d"⟩]

/-- A block can have two malformed statements and close all the same; and a closing brace that is
taken for an operand is missing. -/
theorem unclosed_accounted_malformed :
    (Token.Balanced malformedBody ∧ Token.Supplied malformedBody ∧
      (Parser.ofTokens malformedBody).program.2.diagnostics.length = 2 ∧
      .unclosed ∉ (Parser.ofTokens malformedBody).program.2.diagnostics) ∧
    (Token.Balanced missingOperand ∧
      .unclosed ∈ (Parser.ofTokens missingOperand).program.2.diagnostics) := by
  obtain ⟨-, -, hsupplied⟩ := unclosed_accounted malformedBody (by decide)
  obtain ⟨-, hbalanced, -⟩ := unclosed_accounted missingOperand (by decide)
  have hmalformed : Token.Balanced malformedBody := by decide
  have hmissing : Token.Balanced missingOperand := by decide
  exact ⟨⟨hmalformed, by decide, by decide +kernel, (hsupplied (by decide)).1 hmalformed⟩,
    hmissing, (hbalanced hmissing).mpr (by decide +kernel)⟩

/-- **Not every block that is reported as unclosed is unclosed.** -/
theorem unclosed_of_missing_operand :
    (∀ t ∈ missingOperand, t.kind ≠ .eof) ∧ Token.Balanced missingOperand ∧
      (Parser.ofTokens missingOperand).program.2.diagnostics =
        [.noOpening .rbrace, .unexpected .rbrace .eof] :=
  ⟨by decide, by decide, by decide +kernel⟩

end Grammar

end Treewalk
