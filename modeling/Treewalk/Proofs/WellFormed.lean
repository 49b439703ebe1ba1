import Treewalk.Proofs.Grammar.Derived
import Treewalk.Proofs.Supplies

/-!
# Every tree that is read is well-formed

A tree built by hand may pair a node with any token. A tree that was read does not: every node has
the token it came from, of the kind that the node calls for, and a block is a part of a conditional
and never a statement. This holds of whatever was kept of a text that was rejected, too, wherever
the end of input was met and stepped over.

The one thing that a rejected text may lack is the value of a binding. So there are two notions in
one: `WellFormed gaps`, where `gaps` says whether a binding may be without a value. What is read is
well-formed with gaps if there is any diagnostic, and without gaps if there is none; and a reader
that reads nothing at all has a diagnostic to show for it.
-/

namespace Treewalk

/-! ## Well-formed trees -/

/-- The name is what its token spells, and the token is a name. -/
def Name.WellFormed (name : Name) : Prop :=
  name.token.kind = .ident ∧ name.token.literal = name.value

mutual

/-- Every node of the expression has the token it calls for. -/
def Expr.WellFormed (gaps : Prop) : Expr → Prop
  | .reference name => name.WellFormed
  | .integer token value => token.kind = .int ∧ Integer.ofText? token.literal = some value
  | .boolean token value =>
    (token.kind = .kwTrue ∧ value = true) ∨ (token.kind = .kwFalse ∧ value = false)
  | .unary token op operand => UnaryOp.ofKind? token.kind = some op ∧ operand.WellFormed gaps
  | .binary token left op right =>
    BinaryOp.ofKind? token.kind = some op ∧ left.WellFormed gaps ∧ right.WellFormed gaps
  | .conditional token condition consequence alternative =>
    token.kind = .kwIf ∧ condition.WellFormed gaps ∧ consequence.WellFormed gaps ∧
      Block.WellFormedIfAny gaps alternative

/-- A block has its opening brace. -/
def Block.WellFormed (gaps : Prop) : Block → Prop
  | ⟨token, statements⟩ => token.kind = .lbrace ∧ Stmt.WellFormedAll gaps statements

/-- A block that may be missing is well-formed if it is there. -/
def Block.WellFormedIfAny (gaps : Prop) : Option Block → Prop
  | none => True
  | some body => body.WellFormed gaps

/-- Every node of the statement has the token it calls for, and none is a block on its own. -/
def Stmt.WellFormed (gaps : Prop) : Stmt → Prop
  | .binding token name value =>
    token.kind = .kwLet ∧ name.WellFormed ∧ (value = none → gaps) ∧ Expr.WellFormedIfAny gaps value
  | .result token value => token.kind = .kwReturn ∧ Expr.WellFormedIfAny gaps value
  | .expression _ value => value.WellFormed gaps
  | .block _ => False

/-- An expression that may be missing is well-formed if it is there. -/
def Expr.WellFormedIfAny (gaps : Prop) : Option Expr → Prop
  | none => True
  | some value => value.WellFormed gaps

/-- All the statements are well-formed. -/
def Stmt.WellFormedAll (gaps : Prop) : List Stmt → Prop
  | [] => True
  | statement :: rest => statement.WellFormed gaps ∧ Stmt.WellFormedAll gaps rest

end

theorem Stmt.wellFormedAll_iff {gaps : Prop} {statements : List Stmt} :
    Stmt.WellFormedAll gaps statements ↔ ∀ s ∈ statements, s.WellFormed gaps := by
  induction statements with
  | nil => exact ⟨fun _ => nofun, fun _ => trivial⟩
  | cons s rest ih => rw [List.forall_mem_cons, ← ih, Stmt.WellFormedAll]

/-! ## Readings -/

namespace Reading

variable {α β : Type} {gaps : Prop} {P : α → Prop} {Q : β → Prop}

/-- What is read is as it should be, if a diagnostic is reason enough for gaps; and if nothing is
read there is a diagnostic. -/
structure Sound (gaps : Prop) (P : α → Prop) (r : Reading (Option α)) : Prop where
  value : (r.diagnostics ≠ [] → gaps) → ∀ a, r.value = some a → P a
  blamed : r.value = none → r.diagnostics ≠ []

namespace Sound

variable {r : Reading (Option α)}

/-- What is read without a diagnostic. -/
theorem clean {a : α} {moves : Nat} (h : P a) :
    (⟨some a, moves, []⟩ : Reading (Option α)).Sound gaps P := by
  refine ⟨fun _ b heq => Option.some.inj heq ▸ h, fun heq => ?_⟩
  cases heq

theorem fail (d : Diagnostic) : (fail d).Sound gaps P := by
  refine ⟨fun _ a heq => ?_, fun _ => List.cons_ne_nil _ _⟩
  cases heq

theorem shift (h : r.Sound gaps P) (n : Nat) : (r.shift n).Sound gaps P := ⟨h.value, h.blamed⟩

theorem map (h : r.Sound gaps P) {f : α → β} (hf : ∀ a, P a → Q (f a)) :
    (r.map (Option.map f)).Sound gaps Q := by
  refine ⟨fun hgaps b hb => ?_, fun hnone => h.blamed (Option.map_eq_none_iff.mp hnone)⟩
  obtain ⟨a, ha, rfl⟩ := Option.map_eq_some_iff.mp hb
  exact hf a (h.value hgaps a ha)

/-- **What is read on is sound where both parts are.** The second part may rely on the first;
whether it has read anything may not depend on that. -/
theorem andThen {next : α → Nat → Reading (Option β)} (h : r.Sound gaps P)
    (hnext : ∀ a, r.value = some a → (next a r.moves).Sound gaps fun b => P a → Q b) :
    (r.andThen next).Sound gaps Q := by
  cases hvalue : r.value with
  | none =>
    rw [andThen_of_none hvalue]
    refine ⟨fun _ b heq => ?_, fun _ => h.blamed hvalue⟩
    cases heq
  | some a =>
    rw [andThen_of_some hvalue]
    refine ⟨fun hgaps b hb => ?_, fun hnone hnil => ?_⟩
    · have hfirst : r.diagnostics ≠ [] → gaps :=
        fun hne => hgaps (List.append_ne_nil_of_left_ne_nil hne _)
      have hsecond : (next a r.moves).diagnostics ≠ [] → gaps :=
        fun hne => hgaps (List.append_ne_nil_of_right_ne_nil _ hne)
      exact (hnext a hvalue).value hsecond b hb (h.value hfirst a hvalue)
    · exact (hnext a hvalue).blamed hnone (List.append_eq_nil_iff.mp hnil).2

/-- A statement and all that is read behind it. -/
theorem followedBy {Q : List α → Prop} {rest : Nat → Reading (List α)} (h : r.Sound gaps P)
    (hrest : ((rest r.moves).diagnostics ≠ [] → gaps) → Q (rest r.moves).value)
    (hturn : ∀ first others, (∀ a, first = some a → P a) → Q others → Q (first.toList ++ others))
    (hgaps : (r.followedBy rest).diagnostics ≠ [] → gaps) : Q (r.followedBy rest).value := by
  rw [diagnostics_followedBy] at hgaps
  refine hturn _ _ (h.value fun hne => ?_) (hrest fun hne => ?_)
  · exact hgaps (List.append_ne_nil_of_left_ne_nil hne _)
  · exact hgaps (List.append_ne_nil_of_right_ne_nil _ hne)

end Sound

end Reading

open Reading

/-- **What is assembled is sound** under the rules of the language, none of which refuses. -/
theorem Assembled.sound {gaps : Prop} {α : Type} {place : Place} {extent : Extent} {P : α → Prop}
    {read : List Token → Reading (Option α)} {ahead : List Token}
    (h : Assembled .standard gaps place extent P read ahead) : (read ahead).Sound gaps P := by
  induction h with
  | onSight hread _ ih =>
    rw [hread _ rfl]
    exact ih
  | map _ himp ih => exact ih.map himp
  | andThen _ _ _ ih ihk => exact ih.andThen ihk
  | done ha | operand _ ha | separate _ ha | close _ ha => exact .clean ha
  | missed | unopened | invalid => exact .fail _
  | accept _ _ ih => exact ih.shift 1
  | enclose _ _ ih => exact ih.shift 2
  | enter _ _ ih => exact ih.shift 1
  | begin _ _ ih => exact ih
  | juxtapose _ _ ih => exact ih
  | refuseOpening hopen =>
    rcases Grammar.opening_cases hopen with ⟨-, h⟩ | ⟨-, h⟩ | ⟨-, h⟩ | ⟨-, h⟩ | ⟨_, -, h⟩ | ⟨-, h⟩ |
      ⟨-, h⟩ <;> cases h
  | refuseJoining hjoin =>
    obtain ⟨op, -, hop⟩ := Option.map_eq_some_iff.mp hjoin
    cases hop
  | value _ _ hvalue ih =>
    refine ⟨fun hgaps b hb => ?_, fun hnone => ?_⟩
    · obtain rfl := Option.some.inj hb
      exact hvalue _ (fun hmissing => hgaps (ih.blamed hmissing)) (ih.value hgaps)
    · cases hnone
  | leave _ ha =>
    refine ⟨fun _ b hb => Option.some.inj hb ▸ ha, fun hnone => ?_⟩
    cases hnone
  | turn _ _ _ hturn ih ihk =>
    refine ⟨fun hgaps b hb => ?_, fun hnone => ?_⟩
    · obtain rfl := Option.some.inj hb
      exact ih.followedBy (fun hothers => ihk.value hothers _ rfl) hturn hgaps
    · cases hnone

/-! ## The rules of the language -/

/-- A token that opens an expression by itself is the operand its kind calls for. -/
theorem Expr.wellFormed_of_atom {gaps : Prop} {t : Token} {atom : Atom} {e : Expr}
    (h : Rules.standard.opening t.kind = some (.atom atom)) (he : (atom.read t).1 = some e) :
    e.WellFormed gaps := by
  rcases Grammar.opening_cases h with ⟨hkind, hatom⟩ | ⟨hkind, hatom⟩ | ⟨hkind, hatom⟩ |
    ⟨hkind, hatom⟩ | ⟨_, _, hatom⟩ | ⟨_, hatom⟩ | ⟨_, hatom⟩ <;> cases hatom
  · obtain rfl := Option.some.inj he
    exact ⟨hkind, rfl⟩
  · cases hvalue : Integer.ofText? t.literal with
    | none =>
      simp only [Atom.read, hvalue] at he
      cases he
    | some n =>
      simp only [Atom.read, hvalue] at he
      obtain rfl := Option.some.inj he
      exact ⟨hkind, hvalue⟩
  · obtain rfl := Option.some.inj he
    exact .inl ⟨hkind, decide_eq_true hkind⟩
  · obtain rfl := Option.some.inj he
    exact .inr ⟨hkind, decide_eq_false (by rw [hkind]; decide)⟩

theorem kind_of_opening_conditional {kind : Token.Kind}
    (h : Rules.standard.opening kind = some .conditional) : kind = .kwIf := by
  cases kind with
  | kwIf => rfl
  | _ => cases h

theorem ofKind?_of_opening_unary {kind : Token.Kind} {op : UnaryOp}
    (h : Rules.standard.opening kind = some (.unary op)) : UnaryOp.ofKind? kind = some op := by
  cases kind with
  | bang | minus =>
    cases h
    rfl
  | _ => cases h

/-- **Well-formedness is passed on** by all that is built under the rules of the language. -/
def Hereditary.wellFormed (gaps : Prop) : Hereditary .standard gaps where
  OfExpr e := e.WellFormed gaps
  OfBlock b := b.WellFormed gaps
  OfStmt s := s.WellFormed gaps
  atom := Expr.wellFormed_of_atom
  unary hopen hoperand := ⟨ofKind?_of_opening_unary hopen, hoperand⟩
  binary hjoin hleft hright := by
    obtain ⟨op, hop, heq⟩ := Option.map_eq_some_iff.mp hjoin
    cases heq
    exact ⟨hop, hleft, hright⟩
  complement hjoin := by
    obtain ⟨op, -, hop⟩ := Option.map_eq_some_iff.mp hjoin
    cases hop
  juxtapose hjoin := by
    obtain ⟨op, -, hop⟩ := Option.map_eq_some_iff.mp hjoin
    cases hop
  conditional {_ _ _ alternative} hopen hcondition hconsequence halternative := by
    refine ⟨kind_of_opening_conditional hopen, hcondition, hconsequence, ?_⟩
    cases alternative with
    | none => trivial
    | some b => exact halternative b rfl
  block hbrace hstatements := ⟨hbrace, Stmt.wellFormedAll_iff.mpr hstatements⟩
  binding {_ _ value} hlet hname hgap hvalue := by
    refine ⟨hlet, ⟨hname, rfl⟩, hgap, ?_⟩
    cases value with
    | none => trivial
    | some e => exact hvalue e rfl
  result {_ value} hreturn hvalue := by
    refine ⟨hreturn, ?_⟩
    cases value with
    | none => trivial
    | some e => exact hvalue e rfl
  expression hvalue := hvalue

namespace Rules

variable {gaps : Prop}

theorem readExpr_sound (floor : Strength) (ahead : List Token) :
    (standard.readExpr floor ahead).Sound gaps (·.WellFormed gaps) :=
  (readExpr_assembled (.wellFormed gaps) floor ahead).sound

theorem readStmt_sound (t : Token) (next : List Token) :
    (standard.readStmt t next).Sound gaps (·.WellFormed gaps) :=
  (readStmt_assembled (.wellFormed gaps) t next).sound

/-- What is kept of a program is well-formed. -/
theorem readProgram_wellFormed (ahead : List Token)
    (hgaps : (standard.readProgram ahead).diagnostics ≠ [] → gaps) :
    ∀ s ∈ (standard.readProgram ahead).value, s.WellFormed gaps := by
  induction ahead using standard.program_induction with
  | nil =>
    rw [readProgram]
    exact List.forall_mem_nil _
  | ended t next heof =>
    rw [readProgram, if_pos heof]
    exact List.forall_mem_nil _
  | turn t next heof ih =>
    rw [readProgram, if_neg heof] at hgaps ⊢
    exact (readStmt_sound t next).followedBy ih forall_mem_toList_append hgaps

end Rules

namespace Parser

/-- Nothing was found wrong in a reading that leaves the diagnostics as they were. -/
theorem diagnostics_of_settle {α : Type} {parser : Parser} {r : Reading α}
    (h : (parser.settle r).diagnostics = parser.diagnostics) : r.diagnostics = [] :=
  List.append_right_eq_self.mp h

theorem length_diagnostics_lt {α : Type} (parser : Parser) {r : Reading α}
    (h : r.diagnostics ≠ []) :
    parser.diagnostics.length < (parser.settle r).diagnostics.length := by
  rw [settle, List.length_append]
  exact Nat.lt_add_of_pos_right (List.length_pos_iff.mpr h)

section

variable {parser : Parser} (h : parser.rules = .standard)
include h

theorem program_wellFormed :
    (∀ s ∈ parser.program.1.statements, s.WellFormed True) ∧
      (parser.program.2.diagnostics = parser.diagnostics →
        ∀ s ∈ parser.program.1.statements, s.WellFormed False) := by
  obtain ⟨rules, ahead, pulled, diagnostics⟩ := parser
  obtain rfl : rules = .standard := h
  refine ⟨?_, fun hclean => ?_⟩
  · exact Rules.readProgram_wellFormed ahead fun _ => trivial
  · have hnil := diagnostics_of_settle hclean
    exact Rules.readProgram_wellFormed ahead fun hne => hne hnil

theorem expression_wellFormed (floor : Strength) :
    (∀ e, (parser.expression floor).1 = some e →
      e.WellFormed True ∧
        ((parser.expression floor).2.diagnostics = parser.diagnostics → e.WellFormed False)) ∧
    ((parser.expression floor).1 = none →
      parser.diagnostics.length < (parser.expression floor).2.diagnostics.length) := by
  obtain ⟨rules, ahead, pulled, diagnostics⟩ := parser
  obtain rfl : rules = .standard := h
  refine ⟨fun e he => ⟨?_, fun hclean => ?_⟩, fun hnone => ?_⟩
  · exact (Rules.readExpr_sound floor ahead).value (fun _ => trivial) e he
  · have hnil := diagnostics_of_settle hclean
    exact (Rules.readExpr_sound floor ahead).value (fun hne => hne hnil) e he
  · have hsound : (Rules.standard.readExpr floor ahead).Sound True (·.WellFormed True) :=
      Rules.readExpr_sound floor ahead
    exact length_diagnostics_lt _ (hsound.blamed hnone)

end

end Parser

/-! ## Supplies -/

namespace Host

variable {supply : Nat → Token} {pulled : Nat} {diagnostics : List Diagnostic}
  {host' : Host .none}

theorem Ends.program_wellFormed {program : Program}
    (h : Ends (ofStream .none .standard supply pulled diagnostics) .program (.program program)
      host') :
    (∀ s ∈ program.statements, s.WellFormed True) ∧
      (host'.diagnostics = diagnostics → ∀ s ∈ program.statements, s.WellFormed False) := by
  obtain ⟨moves, hmoves⟩ := Ends.exists_moves .program h
  obtain ⟨hreply, -, rfl⟩ := hmoves (moves + 2) (Nat.le_refl _)
  obtain rfl := Parser.Reply.program.inj hreply
  exact Parser.program_wellFormed rfl

theorem Ends.expression_wellFormed {floor : Strength} {value : Option Expr}
    (h : Ends (ofStream .none .standard supply pulled diagnostics) (.expression floor)
      (.expression value) host') :
    (∀ e, value = some e →
      e.WellFormed True ∧ (host'.diagnostics = diagnostics → e.WellFormed False)) ∧
    (value = none → diagnostics.length < host'.diagnostics.length) := by
  obtain ⟨moves, hmoves⟩ := Ends.exists_moves (.expression floor) h
  obtain ⟨hreply, -, rfl⟩ := hmoves (moves + 2) (Nat.le_refl _)
  obtain rfl := Parser.Reply.expression.inj hreply
  exact Parser.expression_wellFormed rfl floor

/-- Where no statement can be read there is a diagnostic for it. -/
theorem stmt_blamed {depth : Nat}
    (h : (Readers.deep .none depth).stmt (ofStream .none .standard supply pulled diagnostics) =
      some (none, host')) :
    diagnostics.length < host'.diagnostics.length := by
  obtain ⟨moves, hmoves⟩ := exists_moves_of_extends (fun depth => (Readers.deep .none depth).stmt)
    (fun hle => (Comparison.related_extension hle).stmt) h
  have hstart : Token.start supply (moves + 2) =
      supply 0 :: (Token.start supply (moves + 2)).tail := by
    rw [Token.start, List.range_succ_eq_map]
    rfl
  obtain ⟨least, hstmt⟩ := Rules.standard.readStmt_settles (g := .none) (supply 0)
    (Token.start supply (moves + 2)).tail
  rw [← hstart] at hstmt
  obtain ⟨hvalue, -, rfl⟩ := hmoves (moves + 2) (Nat.le_refl _) _ _
    ⟨least, fun depth hdepth => hstmt depth hdepth pulled diagnostics⟩
  have hsound : (Rules.standard.readStmt (supply 0) (Token.start supply (moves + 2)).tail).Sound
      True (·.WellFormed True) := Rules.readStmt_sound _ _
  exact Parser.length_diagnostics_lt
    ⟨.standard, Token.start supply (moves + 2), pulled, diagnostics⟩ (hsound.blamed hvalue)

end Host

/-- **Every tree that is read is well-formed.** Let a parser stand anywhere in any supply, and under
the rules of the language. Then a program and an expression that it reads are well-formed at every
depth, whether or not anything is found wrong; if nothing is, no binding is without a value. And a
reader of expressions or of statements that reads nothing records a diagnostic. This goes for
supplies that never come to an end too, as far as reading does. -/
theorem Parser.trees_wellFormed :
    (∀ parser : Parser, parser.rules = .standard →
      ((∀ s ∈ parser.program.1.statements, s.WellFormed True) ∧
        (parser.program.2.diagnostics = parser.diagnostics →
          ∀ s ∈ parser.program.1.statements, s.WellFormed False)) ∧
      (∀ floor, (∀ e, (parser.expression floor).1 = some e →
          e.WellFormed True ∧
            ((parser.expression floor).2.diagnostics = parser.diagnostics → e.WellFormed False)) ∧
        ((parser.expression floor).1 = none →
          parser.diagnostics.length < (parser.expression floor).2.diagnostics.length)) ∧
      ∀ t next, (parser.rules.readStmt t next).value = none →
        (parser.rules.readStmt t next).diagnostics ≠ []) ∧
    ∀ (supply : Nat → Token) (pulled : Nat) (diagnostics : List Diagnostic) (host' : Host .none),
      let host := Host.ofStream .none .standard supply pulled diagnostics
      (∀ program, host.Ends .program (.program program) host' →
        (∀ s ∈ program.statements, s.WellFormed True) ∧
        (host'.diagnostics = diagnostics → ∀ s ∈ program.statements, s.WellFormed False)) ∧
      (∀ floor value, host.Ends (.expression floor) (.expression value) host' →
        (∀ e, value = some e →
          e.WellFormed True ∧ (host'.diagnostics = diagnostics → e.WellFormed False)) ∧
        (value = none → diagnostics.length < host'.diagnostics.length)) ∧
      ∀ depth, (Readers.deep .none depth).stmt host = some (none, host') →
        diagnostics.length < host'.diagnostics.length := by
  refine ⟨fun parser hrules =>
      ⟨program_wellFormed hrules, expression_wellFormed hrules, fun t next => ?_⟩,
    fun _ _ _ _ => ⟨fun _ => Host.Ends.program_wellFormed,
      fun _ _ => Host.Ends.expression_wellFormed, fun _ => Host.stmt_blamed⟩⟩
  have hsound : (Rules.standard.readStmt t next).Sound True (·.WellFormed True) :=
    Rules.readStmt_sound t next
  rw [hrules]
  exact hsound.blamed

/-- In `if (x) { let y =`, end of input, `!1 }` the value is missing and the block goes on behind
the end of input. The tree that is kept has a gap. On its own, `!` is nothing and has a diagnostic,
and without anything wrong there is no gap. Of a supply without end the same is read: a binding with
a gap where `let y =` stands before the end of input, and nothing where commas follow `!`. -/
theorem Parser.trees_wellFormed_gap :
    let parser := ofTokens [⟨.kwIf, "if"⟩, ⟨.lparen, "("⟩, ⟨.ident, "x"⟩, ⟨.rparen, ")"⟩,
      ⟨.lbrace, "\x7b"⟩, ⟨.kwLet, "let"⟩, ⟨.ident, "y"⟩, ⟨.assign, "="⟩, .eof, ⟨.bang, "!"⟩,
      ⟨.int, "1"⟩, ⟨.rbrace, "\x7d"⟩]
    let operator := ofTokens [⟨.bang, "!"⟩]
    let binding := ofTokens [⟨.kwLet, "let"⟩, ⟨.ident, "y"⟩, ⟨.assign, "="⟩, ⟨.kwTrue, "true"⟩]
    let gap : Stmt := .binding ⟨.kwLet, "let"⟩ ⟨⟨.ident, "y"⟩, "y"⟩ none
    let before (tokens : List Token) (t : Token) (pulled : Nat) (diagnostics : List Diagnostic) :
      Host .none := .ofStream .none .standard (fun n => tokens.getD n t) pulled diagnostics
    ((∀ s ∈ parser.program.1.statements, s.WellFormed True) ∧
      parser.program.1.statements = [.expression ⟨.kwIf, "if"⟩ (.conditional ⟨.kwIf, "if"⟩
        (.reference ⟨⟨.ident, "x"⟩, "x"⟩) ⟨⟨.lbrace, "\x7b"⟩,
          [gap, .expression ⟨.bang, "!"⟩ (.unary ⟨.bang, "!"⟩ .not
            (.integer ⟨.int, "1"⟩ ⟨1, by decide, by decide⟩))]⟩ none)] ∧
      parser.program.2.diagnostics = [.noOpening .eof]) ∧
    ((operator.expression .lowest).1 = none ∧
      operator.diagnostics.length < (operator.expression .lowest).2.diagnostics.length) ∧
    (binding.program.2.diagnostics = binding.diagnostics ∧
      binding.program.1.statements.length = 1 ∧
      ∀ s ∈ binding.program.1.statements, s.WellFormed False) ∧
    ((before [⟨.kwLet, "let"⟩, ⟨.ident, "y"⟩, ⟨.assign, "="⟩] .eof 2 []).Ends .program
        (.program ⟨[gap]⟩) (before [] .eof 6 [.noOpening .eof]) ∧
      ∀ s ∈ [gap], s.WellFormed True) ∧
    ((before [⟨.bang, "!"⟩] ⟨.comma, ","⟩ 2 []).Ends (.expression .lowest) (.expression none)
        (before [] ⟨.comma, ","⟩ 3 [.noOpening .comma]) ∧
      0 < (before [] ⟨.comma, ","⟩ 3 [.noOpening .comma]).diagnostics.length) := by
  intro parser operator binding gap before
  have hnone : (operator.expression .lowest).1 = none := by decide +kernel
  have hclean : binding.program.2.diagnostics = binding.diagnostics := by decide +kernel
  have hgap : (before [⟨.kwLet, "let"⟩, ⟨.ident, "y"⟩, ⟨.assign, "="⟩] .eof 2 []).Ends .program
      (.program ⟨[gap]⟩) (before [] .eof 6 [.noOpening .eof]) := ⟨3, rfl⟩
  have hcommas : (before [⟨.bang, "!"⟩] ⟨.comma, ","⟩ 2 []).Ends (.expression .lowest)
      (.expression none) (before [] ⟨.comma, ","⟩ 3 [.noOpening .comma]) := ⟨2, rfl⟩
  exact ⟨⟨(trees_wellFormed.1 parser rfl).1.1, by decide +kernel, by decide +kernel⟩,
    ⟨hnone, ((trees_wellFormed.1 operator rfl).2.1 .lowest).2 hnone⟩,
    ⟨hclean, by decide +kernel, (trees_wellFormed.1 binding rfl).1.2 hclean⟩,
    ⟨hgap, ((trees_wellFormed.2 _ 2 [] _).1 _ hgap).1⟩,
    hcommas, ((trees_wellFormed.2 _ 2 [] _).2.1 .lowest none hcommas).2 rfl⟩

end Treewalk
