import Treewalk.Parser
import Treewalk.Proofs.Assembly

/-!
# Every pull is accounted for

Reading ends, whatever the rules, and comes to rest on the end of input. This module says what it
costs. Reading can move beyond the tokens there are: a block that is never closed moves on at the
end of input, and so does every block around it. But each of these moves is paid for by a diagnostic
of its own, and there is no diagnostic without a token to blame.

`Accounted extent spare length` says so of a reading from a position with `length` tokens from the
current one on. A part that was read leaves one of its tokens without blame, and it is this token
that a diagnostic of the reading around it can be charged to. The `spare` move is one that nobody
pays for: where a rule lets the end of input open an expression, reading can come to rest there once
without a diagnostic.
-/

namespace Treewalk

namespace Reading

variable {α β : Type}

/-- The moves beyond the end of a supply are charged to diagnostics, and diagnostics to tokens.
There are `length` tokens from the current one on. -/
structure Accounted (extent : Extent) (spare length : Nat) (r : Reading (Option α)) : Prop where
  le_moves : r.diagnostics.length ≤ r.moves + 1
  le_length : r.diagnostics.length ≤ max 1 length
  /-- A part that was read has a token that no diagnostic is charged to. -/
  of_some : extent = .part → r.value.isSome →
    r.diagnostics.length ≤ r.moves ∧ r.diagnostics.length ≤ length - 1
  moves_le : r.moves + 1 ≤ length + r.diagnostics.length + spare

/-- The same of statements up to the end of a block. The diagnostic for a block that is left open
has no token among them, and where there are none at all there is no spare move. -/
structure Tallied (spare length : Nat) (r : Reading α) : Prop where
  le_moves : r.diagnostics.length ≤ r.moves + 1
  le_length : r.diagnostics.length ≤ length + 1
  moves_le : r.moves + 1 ≤ length + r.diagnostics.length + min spare length

namespace Accounted

variable {extent : Extent} {spare length : Nat} {r : Reading (Option α)}

theorem mono (h : r.Accounted extent spare length) {spare' length' : Nat} (hspare : spare ≤ spare')
    (hlength : length ≤ length') : r.Accounted extent spare' length' := by
  obtain ⟨hmoves, hlen, hsome, hle⟩ := h
  exact ⟨hmoves, by omega, fun hpart hvalue => by have := hsome hpart hvalue; omega, by omega⟩

theorem done (hlength : 1 ≤ length + spare) (value : Option α) :
    (done value).Accounted extent spare length := by
  refine ⟨?_, ?_, fun _ _ => ⟨?_, ?_⟩, ?_⟩ <;> simp only [Reading.done, List.length_nil] <;> omega

theorem fail (d : Diagnostic) : (fail d : Reading (Option α)).Accounted extent spare length := by
  refine ⟨?_, ?_, fun _ hvalue => Bool.noConfusion hvalue, ?_⟩ <;>
    simp only [Reading.fail, List.length_singleton] <;> omega

theorem map (h : r.Accounted extent spare length) (f : α → β) :
    (r.map (Option.map f)).Accounted extent spare length := by
  refine ⟨h.le_moves, h.le_length, fun hpart hvalue => h.of_some hpart ?_, h.moves_le⟩
  rwa [value_map, Option.isSome_map] at hvalue

theorem shift (h : r.Accounted extent spare length) (n : Nat) :
    (r.shift n).Accounted extent spare (length + n) := by
  obtain ⟨hmoves, hlen, hsome, hle⟩ := h
  refine ⟨?_, ?_, fun hpart hvalue => ?_, ?_⟩ <;> simp only [moves_shift, diagnostics_shift]
  · omega
  · omega
  · have := hsome hpart hvalue
    omega
  · omega

/-- **Reading on is accounted for where both parts are.** Beyond the end of the supply the current
token still counts as one, and there is no spare move left. -/
theorem andThen {next : α → Nat → Reading (Option β)} (h : r.Accounted .part spare length)
    (hnext : ∀ a, r.value = some a → (next a r.moves).Accounted extent
      (min spare (length - r.moves)) (max 1 (length - r.moves))) :
    (r.andThen next).Accounted extent spare length := by
  obtain ⟨hmoves, hlen, hsome, hle⟩ := h
  cases hvalue : r.value with
  | none =>
    rw [andThen_of_none hvalue]
    exact ⟨hmoves, hlen, fun _ hnone => Bool.noConfusion hnone, hle⟩
  | some a =>
    obtain ⟨hmoves', hlen', hsome', hle'⟩ := hnext a hvalue
    have hkept := hsome rfl (by rw [hvalue]; rfl)
    rw [andThen_of_some hvalue]
    refine ⟨?_, ?_, fun hpart hwhole => ?_, ?_⟩ <;> simp only [List.length_append]
    · omega
    · omega
    · have := hsome' hpart hwhole
      omega
    · omega

end Accounted

end Reading

open Reading

/-! ## Single tokens -/

/-- A semicolon is moved onto only where it is there. -/
theorem separator_le (next : List Token) : separator next ≤ min 1 next.length := by
  cases next with
  | nil => exact Nat.zero_le _
  | cons t rest =>
    unfold separator
    split <;> simp only [List.length_cons] <;> omega

/-! ## Readings at their places -/

/-- The moves that nobody pays for: one, where a rule opens expressions at the end of input. -/
def Rules.spare (rules : Rules) : Nat := if rules.opening .eof = none then 0 else 1

theorem Rules.spare_le_one (rules : Rules) : rules.spare ≤ 1 := by
  unfold spare
  split <;> omega

/-- Where an expression opens there is a token, or a spare move. -/
theorem Rules.one_le_length_add_spare (rules : Rules) {ahead : List Token}
    (h : rules.opening (Token.next ahead).kind ≠ none) : 1 ≤ ahead.length + rules.spare := by
  cases ahead with
  | nil => exact Nat.le_add_left_of_le (Nat.le_of_eq (if_neg h).symm)
  | cons t next => exact Nat.le_add_right_of_le (Nat.le_add_left 1 _)

/-- A reading is accounted for by the tokens from the current one on. Where something has been read
there is a current token, even beyond the end of the supply, and no spare move there. -/
def Place.Accounts {α : Type} (place : Place) (extent : Extent) (spare : Nat) (ahead : List Token)
    (r : Reading (Option α)) : Prop :=
  match place with
  | .fresh => r.Accounted extent spare ahead.length
  | .resting => r.Accounted extent (min spare ahead.length) (max 1 ahead.length)
  | .block => r.Tallied spare ahead.length

namespace Place.Accounts

variable {α β : Type} {place : Place} {extent : Extent} {spare : Nat} {ahead : List Token}
  {r : Reading (Option α)}

theorem map (h : place.Accounts extent spare ahead r) (f : α → β) :
    place.Accounts extent spare ahead (r.map (Option.map f)) := by
  cases place with
  | fresh | resting => exact Accounted.map h f
  | block => exact ⟨h.le_moves, h.le_length, h.moves_le⟩

theorem andThen {next : α → Nat → Reading (Option β)} (hplace : place ≠ .block)
    (h : place.Accounts .part spare ahead r)
    (hnext : ∀ a, r.value = some a →
      resting.Accounts extent spare (ahead.drop r.moves) (next a r.moves)) :
    place.Accounts extent spare ahead (r.andThen next) := by
  have hrest (a : α) (ha : r.value = some a) := hnext a ha
  simp only [Accounts, List.length_drop] at hrest
  cases place with
  | fresh => exact Accounted.andThen h hrest
  | resting =>
    exact Accounted.andThen h fun a ha => (hrest a ha).mono (by omega) (by omega)
  | block => exact absurd rfl hplace

end Place.Accounts

/-- **What is assembled is accounted for.** -/
theorem Assembled.accounted {rules : Rules} {gaps : Prop} {α : Type} {place : Place}
    {extent : Extent} {P : α → Prop} {read : List Token → Reading (Option α)} {ahead : List Token}
    (h : Assembled rules gaps place extent P read ahead) :
    place.Accounts extent rules.spare ahead (read ahead) := by
  have hone := rules.spare_le_one
  induction h with
  | onSight hread _ ih =>
    rw [hread _ rfl]
    exact ih
  | map _ _ ih => exact ih.map _
  | andThen hplace _ _ ih ihk => exact ih.andThen hplace ihk
  | done => exact .done (by omega) _
  | missed => exact .fail _
  | accept _ _ ih | enter _ _ ih =>
    refine (Accounted.shift ih 1).mono ?_ ?_ <;> simp only [List.length_cons] <;> omega
  | enclose _ _ ih =>
    -- the opening brace has no diagnostic of its own, so the one for a block left open has a token
    obtain ⟨hmoves, hlen, hle⟩ := ih
    refine ⟨?_, ?_, fun _ _ => ⟨?_, ?_⟩, ?_⟩ <;>
      simp only [moves_shift, diagnostics_shift, List.drop_succ_cons, List.drop_zero,
        List.length_cons] <;> omega
  | unopened => exact .fail _
  | operand hopen => exact .done (rules.one_le_length_add_spare hopen) _
  | invalid => exact .fail _
  | refuseOpening hopen => exact .done (rules.one_le_length_add_spare (by simp [hopen])) _
  | begin _ _ ih | juxtapose _ _ ih =>
    refine Accounted.mono ih ?_ ?_ <;> simp only [List.length_cons] <;> omega
  | refuseJoining => exact .done (by omega) _
  | separate =>
    refine ⟨?_, ?_, nofun, ?_⟩ <;> simp only [List.length_nil, List.length_cons] <;> omega
  | @value _ _ _ _ f _ t next _ _ _ ih =>
    obtain ⟨hmoves, hlen, -, hle⟩ := ih
    have hsep := separator_le (next.drop (1 + (f next).moves))
    rw [List.length_drop] at hsep
    refine ⟨?_, ?_, nofun, ?_⟩ <;>
      simp only [moves_shift, diagnostics_shift, List.drop_succ_cons, List.drop_zero,
        List.length_cons] <;> omega
  | close =>
    refine ⟨?_, ?_, ?_⟩ <;> simp only [Reading.done, List.length_nil, List.length_cons] <;> omega
  | leave => refine ⟨?_, ?_, ?_⟩ <;> simp only [List.length_singleton] <;> omega
  | turn _ _ _ _ ih ihk =>
    obtain ⟨hmoves, hlen, -, hle⟩ := ih
    obtain ⟨hmoves', hlen', hle'⟩ := ihk
    simp only [moves_map, diagnostics_map, List.length_drop, List.length_cons] at *
    refine ⟨?_, ?_, ?_⟩ <;>
      simp only [moves_map, diagnostics_map, moves_followedBy, diagnostics_followedBy,
        List.length_append, List.length_cons] <;> omega

namespace Rules

theorem readStmt_accounted (rules : Rules) (t : Token) (next : List Token) :
    (rules.readStmt t next).Accounted .whole rules.spare (next.length + 1) :=
  (readStmt_assembled (.trivial rules) t next).accounted

/-! ## Programs -/

/-- **Reading a program uses up the supply**, under all rules. -/
theorem drop_readProgram (rules : Rules) (ahead : List Token)
    (heof : ∀ t ∈ ahead, t.kind ≠ .eof) :
    ahead.drop (rules.readProgram ahead).moves = [] := by
  induction ahead using rules.program_induction with
  | nil => rw [List.drop_nil]
  | ended t next hended => exact absurd hended (heof t List.mem_cons_self)
  | turn t next ht ih =>
    rw [readProgram, if_neg ht, moves_followedBy, Nat.add_right_comm, List.drop_succ_cons,
      ← List.drop_drop]
    exact ih fun u hu => heof u (List.mem_cons_of_mem _ (List.mem_of_mem_drop hu))

/-- **A program is accounted for**: no more diagnostics than tokens, and no more moves than tokens,
diagnostics and the spare one. -/
theorem readProgram_accounted (rules : Rules) (ahead : List Token) :
    (rules.readProgram ahead).diagnostics.length ≤ ahead.length ∧
      (rules.readProgram ahead).moves ≤
        ahead.length + (rules.readProgram ahead).diagnostics.length + rules.spare := by
  induction ahead using rules.program_induction with
  | nil =>
    rw [readProgram]
    exact ⟨Nat.le_refl 0, Nat.zero_le _⟩
  | ended t next heof =>
    rw [readProgram, if_pos heof]
    exact ⟨Nat.zero_le _, Nat.zero_le _⟩
  | turn t next heof ih =>
    obtain ⟨hmoves, hlen, -, hle⟩ := rules.readStmt_accounted t next
    obtain ⟨hlen', hle'⟩ := ih
    rw [List.length_drop] at hlen' hle'
    -- a statement that ends beyond the supply has nothing behind it
    have hnone : next.length ≤ (rules.readStmt t next).moves →
        (rules.readProgram (next.drop (rules.readStmt t next).moves)).moves = 0 := by
      intro hout
      rw [List.drop_eq_nil_of_le hout, readProgram]
      rfl
    rw [readProgram, if_neg heof]
    simp only [moves_followedBy, diagnostics_followedBy, List.length_append, List.length_cons]
    omega

end Rules

namespace Parser

/-- Does a command register a rule? -/
def Command.registers : Command → Bool
  | .registerOpening _ _ | .registerJoining _ _ => true
  | .program | .expression _ => false

/-- Registering changes nothing but the rules. -/
theorem exists_after_of_registers (commands : List Command)
    (h : ∀ command ∈ commands, command.registers = true) (parser : Parser) :
    ∃ rules, parser.after commands =
      ⟨rules, parser.ahead, parser.pulled, parser.diagnostics⟩ := by
  induction commands generalizing parser with
  | nil => exact ⟨parser.rules, rfl⟩
  | cons command rest ih =>
    have hrest := fun c hc => h c (List.mem_cons_of_mem _ hc)
    have hfirst := h command List.mem_cons_self
    obtain ⟨rules, hafter⟩ := ih hrest (parser.obey command).2
    refine ⟨rules, hafter.trans ?_⟩
    cases command with
    | registerOpening kind opening => rfl
    | registerJoining kind joining => rfl
    | program => cases hfirst
    | expression floor => cases hfirst

/-- What reading a program costs under given rules. -/
theorem program_accounted_of_rules (rules : Rules) (tokens : List Token)
    (heof : ∀ t ∈ tokens, t.kind ≠ .eof) :
    let parser := (Parser.mk rules tokens 2 []).program.2
    parser.current = .eof ∧ parser.diagnostics.length ≤ tokens.length ∧
      tokens.length + 2 ≤ parser.pulled ∧
      parser.pulled ≤ tokens.length + 2 + parser.diagnostics.length + rules.spare := by
  intro parser
  have hdrop := rules.drop_readProgram tokens heof
  obtain ⟨hlen, hle⟩ := rules.readProgram_accounted tokens
  have hge : tokens.length ≤ (rules.readProgram tokens).moves := List.drop_eq_nil_iff.mp hdrop
  refine ⟨?_, hlen, ?_, ?_⟩
  · show Token.next (tokens.drop (rules.readProgram tokens).moves) = .eof
    rw [hdrop, Token.next_nil]
  · show tokens.length + 2 ≤ 2 + (rules.readProgram tokens).moves
    omega
  · show 2 + (rules.readProgram tokens).moves ≤
      tokens.length + 2 + (rules.readProgram tokens).diagnostics.length + rules.spare
    omega

/-- **Reading always ends, and every pull is accounted for.** Under the rules of the language a
program of `n` tokens has at most `n` diagnostics, and beyond the `n + 2` tokens that have to be
pulled there is at most one pull for each of them. Whatever rules are registered, reading ends on
the end of input all the same, and at most one pull more is made. -/
theorem program_accounted (tokens : List Token) (heof : ∀ t ∈ tokens, t.kind ≠ .eof) :
    let parser := (ofTokens tokens).program.2
    (parser.current = .eof ∧ parser.diagnostics.length ≤ tokens.length ∧
      tokens.length + 2 ≤ parser.pulled ∧
      parser.pulled ≤ tokens.length + 2 + parser.diagnostics.length ∧
      (parser.diagnostics = [] → parser.pulled = tokens.length + 2)) ∧
    ∀ commands : List Command, (∀ command ∈ commands, command.registers = true) →
      let parser' := ((ofTokens tokens).after commands).program.2
      parser'.current = .eof ∧ parser'.diagnostics.length ≤ tokens.length ∧
        parser'.pulled ≤ tokens.length + 3 + parser'.diagnostics.length := by
  intro parser
  constructor
  · obtain ⟨hcurrent, hlen, hge, hle⟩ := program_accounted_of_rules .standard tokens heof
    refine ⟨hcurrent, hlen, hge, hle, fun hclean => Nat.le_antisymm ?_ hge⟩
    have hnone : parser.diagnostics.length = 0 := congrArg List.length hclean
    have hle' : parser.pulled ≤ tokens.length + 2 + parser.diagnostics.length := hle
    rwa [hnone] at hle'
  · intro commands hcommands
    obtain ⟨rules, hafter⟩ : ∃ rules, (ofTokens tokens).after commands = ⟨rules, tokens, 2, []⟩ :=
      exists_after_of_registers commands hcommands (ofTokens tokens)
    obtain ⟨hcurrent, hlen, -, hle⟩ := program_accounted_of_rules rules tokens heof
    have hone := rules.spare_le_one
    rw [hafter]
    exact ⟨hcurrent, hlen, by omega⟩

/-- In `if (x) { !` the operand and the closing brace are both missing, and there are two pulls more
than for a program of six tokens that is accepted. With a rule that takes the end of input for a
name, the operand is there. -/
theorem program_accounted_unclosed :
    let tokens : List Token := [⟨.kwIf, "if"⟩, ⟨.lparen, "("⟩, ⟨.ident, "x"⟩, ⟨.rparen, ")"⟩,
      ⟨.lbrace, "\x7b"⟩, ⟨.bang, "!"⟩]
    let parser := (ofTokens tokens).program.2
    let parser' := ((ofTokens tokens).after [.registerJoining .bang .juxtapose,
      .registerOpening .eof (.atom .name)]).program.2
    (parser.current = .eof ∧ parser.diagnostics.length ≤ 6 ∧ 8 ≤ parser.pulled ∧
      parser.pulled ≤ 8 + parser.diagnostics.length ∧
      (parser.diagnostics = [] → parser.pulled = 8)) ∧
    (parser'.current = .eof ∧ parser'.diagnostics.length ≤ 6 ∧
      parser'.pulled ≤ 9 + parser'.diagnostics.length) ∧
    (parser.pulled, parser.diagnostics.length) = (10, 2) ∧
    (parser'.pulled, parser'.diagnostics.length) = (10, 1) := by
  intro tokens parser parser'
  have h := program_accounted tokens (by decide)
  exact ⟨h.1, h.2 _ (by decide), by decide +kernel, by decide +kernel⟩

end Parser

end Treewalk
