import Treewalk.Proofs.Grammar.Derived
import Treewalk.Proofs.Supplies

/-!
# Reading above a tighter floor comes first

An expression is read above a floor: what follows is joined to it as long as it binds tighter. The
floor decides when to stop and nothing else, since the right operand of a join is read above the
joining token's own strength. So reading above a looser floor is reading above a tighter one and
then going on from there (`Rules.readExpr_eq_andThen`). What is read first is not taken apart any
more: all later joins have it in their left operand (`Rules.readMore_leftPart`).
-/

namespace Treewalk

namespace Reading

variable {α β γ : Type}

theorem done_andThen (a : α) (next : α → Nat → Reading (Option β)) :
    (done (some a)).andThen next = next a 0 := by
  rw [andThen_of_some rfl]
  simp only [done, Nat.zero_add, List.nil_append]

theorem shift_andThen (m : Nat) (r : Reading (Option α)) (next : α → Nat → Reading (Option β)) :
    (r.shift m).andThen next = (r.andThen fun a n => next a (m + n)).shift m := by
  obtain ⟨value, moves, diagnostics⟩ := r
  cases value with
  | none => rfl
  | some a => simp only [shift, andThen, Nat.add_assoc]

/-- Reading on twice is reading on once, from what is then read. -/
theorem andThen_andThen (r : Reading (Option α)) (next : α → Nat → Reading (Option β))
    (last : β → Nat → Reading (Option γ)) :
    (r.andThen next).andThen last =
      r.andThen fun a m => (next a m).andThen fun b n => last b (m + n) := by
  obtain ⟨value, moves, diagnostics⟩ := r
  cases value with
  | none => rfl
  | some a =>
    simp only [andThen]
    cases (next a moves).value with
    | none => rfl
    | some b => simp only [Nat.add_assoc, List.append_assoc]

/-- What is read in the end is read on from what was read first. -/
theorem exists_of_andThen {r : Reading (Option α)} {next : α → Nat → Reading (Option β)} {b : β}
    (h : (r.andThen next).value = some b) :
    ∃ a, r.value = some a ∧ (next a r.moves).value = some b := by
  cases hvalue : r.value with
  | none =>
    rw [andThen_of_none hvalue] at h
    cases h
  | some a =>
    rw [andThen_of_some hvalue] at h
    exact ⟨a, rfl, h⟩

end Reading

namespace Rules

/-! ## The loop, in two parts -/

/-- **Reading on above a looser floor starts with reading on above a tighter one.** -/
theorem readMore_eq_andThen (rules : Rules) {p q : Strength} (hle : p ≤ q) (left : Expr)
    (ahead : List Token) :
    rules.readMore p left ahead = (rules.readMore q left ahead).andThen fun e m =>
      rules.readMore p e (ahead.drop m) := by
  have hstay : rules.readMore q left ahead = .done (some left) →
      rules.readMore p left ahead = (rules.readMore q left ahead).andThen fun e m =>
        rules.readMore p e (ahead.drop m) := by
    intro hq
    rw [hq, Reading.done_andThen, List.drop_zero]
  match ahead with
  | [] | [_] => exact hstay (by rw [readMore.eq_def])
  | last :: t :: next =>
    by_cases hq : q < t.kind.strength
    · have hp : p < t.kind.strength := Nat.lt_of_le_of_lt hle hq
      cases hjoin : rules.joining t.kind with
      | none => exact hstay (by rw [readMore, if_pos hq, hjoin])
      | some joining =>
        -- the same join in both, behind which the loops compare again
        rw [readMore, if_pos hp, readMore, if_pos hq, hjoin]
        simp only
        rw [Reading.shift_andThen, Reading.andThen_andThen]
        congr 2
        funext whole m
        rw [rules.readMore_eq_andThen hle whole ((t :: next).drop m)]
        congr 1
        funext e n
        rw [List.drop_drop, Nat.add_comm 1, List.drop_succ_cons]
    · exact hstay (by rw [readMore, if_neg hq])
termination_by ahead.length
decreasing_by simp only [List.length_drop, List.length_cons]; omega

/-- **An expression above a looser floor starts with the one above a tighter floor.** -/
theorem readExpr_eq_andThen (rules : Rules) {p q : Strength} (hle : p ≤ q) (ahead : List Token) :
    rules.readExpr p ahead = (rules.readExpr q ahead).andThen fun e m =>
      rules.readMore p e (ahead.drop m) := by
  rw [readExpr, readExpr, Reading.andThen_andThen]
  congr 1
  funext left m
  rw [rules.readMore_eq_andThen hle]
  simp only [List.drop_drop]

end Rules

/-! ## Left operands -/

/-- The expression is the other one, or is reached from it by going from operators to their left
operands. -/
inductive Expr.LeftPart (e : Expr) : Expr → Prop
  | self : LeftPart e e
  | left {whole : Expr} (t : Token) (op : BinaryOp) (right : Expr) :
      LeftPart e whole → LeftPart e (.binary t whole op right)

theorem Expr.LeftPart.trans {a b c : Expr} (hab : a.LeftPart b) (hbc : b.LeftPart c) :
    a.LeftPart c := by
  induction hbc with
  | self => exact hab
  | left t op right _ ih => exact .left t op right ih

/-- **What follows an expression is joined to it as to a left operand.** -/
theorem Rules.readMore_leftPart (floor : Strength) (e : Expr) (ahead : List Token) {whole : Expr}
    (h : (standard.readMore floor e ahead).value = some whole) : e.LeftPart whole := by
  match ahead with
  | [] =>
    rw [readMore.eq_def] at h
    exact Option.some.inj h ▸ .self
  | last :: rest =>
    by_cases hstop : Grammar.Stops floor (Token.next rest).kind
    · rw [Grammar.readMore_of_stops hstop] at h
      exact Option.some.inj h ▸ .self
    · obtain ⟨t, next, op, hrest, hop, hlt⟩ := Grammar.exists_of_not_stops hstop
      rw [hrest, Grammar.readMore_of_operator hop hlt, Reading.value_shift] at h
      obtain ⟨joined, hjoined, hwhole⟩ := Reading.exists_of_andThen h
      obtain ⟨right, -, rfl⟩ := Option.map_eq_some_iff.mp hjoined
      have hlater := readMore_leftPart floor _ _ hwhole
      exact (Expr.LeftPart.left t op right .self).trans hlater
termination_by ahead.length
decreasing_by simp only [hrest, List.length_drop, List.length_cons]; omega

/-! ## Parsers -/

/-- Two readings of a parser, the second above a looser floor. -/
theorem Parser.expression_of_le (parser : Parser) (hrules : parser.rules = .standard)
    {p q : Strength} (hle : p ≤ q) :
    ((parser.expression q).1 = none → parser.expression p = parser.expression q) ∧
    ∀ e, (parser.expression q).1 = some e →
      (parser.expression q).2.diagnostics <+: (parser.expression p).2.diagnostics ∧
      (parser.expression q).2.pulled ≤ (parser.expression p).2.pulled ∧
      ∀ e', (parser.expression p).1 = some e' → e.LeftPart e' := by
  obtain ⟨rules, ahead, pulled, diagnostics⟩ := parser
  obtain rfl : rules = .standard := hrules
  have hsplit := Rules.standard.readExpr_eq_andThen hle ahead
  simp only [expression, settle]
  generalize Rules.standard.readExpr q ahead = r at hsplit
  refine ⟨fun hnone => ?_, fun e he => ?_⟩
  · rw [hsplit, Reading.andThen_of_none hnone, ← hnone]
  · rw [hsplit, Reading.andThen_of_some he]
    refine ⟨?_, by simp only; omega, fun e' he' => Rules.readMore_leftPart p e _ he'⟩
    rw [← List.append_assoc]
    exact List.prefix_append _ _

namespace Host

variable {supply : Nat → Token} {pulled : Nat} {diagnostics : List Diagnostic} {p q : Strength}
  {host' host'' : Host .none}

/-- Where nothing can be read above a tighter floor, nothing can be read above a looser one. -/
theorem Ends.loosen (hle : p ≤ q)
    (h : Ends (ofStream .none .standard supply pulled diagnostics) (.expression q)
      (.expression none) host') :
    Ends (ofStream .none .standard supply pulled diagnostics) (.expression p)
      (.expression none) host' := by
  obtain ⟨moves, hmoves⟩ := Ends.exists_moves (.expression q) h
  obtain ⟨hreply, hpulled, rfl⟩ := hmoves (moves + 2) (Nat.le_refl _)
  let parser : Parser := ⟨.standard, Token.start supply (moves + 2), pulled, diagnostics⟩
  have hsame : parser.obey (.expression p) = parser.obey (.expression q) := by
    have hnone := (parser.expression_of_le rfl hle).1 (Parser.Reply.expression.inj hreply)
    simp only [Parser.obey, hnone]
  have hends := ends_of_obey (g := .none) (.expression p) (Nat.le_refl (moves + 2))
    (hsame ▸ hpulled)
  rwa [hsame, hreply] at hends

/-- Where both can be read, the expression above the tighter floor comes first. -/
theorem Ends.initial (hle : p ≤ q) {e : Expr} {value' : Option Expr}
    (h : Ends (ofStream .none .standard supply pulled diagnostics) (.expression q)
      (.expression (some e)) host')
    (h' : Ends (ofStream .none .standard supply pulled diagnostics) (.expression p)
      (.expression value') host'') :
    host'.diagnostics <+: host''.diagnostics ∧ host'.pulled ≤ host''.pulled ∧
      ∀ e', value' = some e' → e.LeftPart e' := by
  obtain ⟨moves, hmoves⟩ := Ends.exists_moves (.expression q) h
  obtain ⟨moves', hmoves'⟩ := Ends.exists_moves (.expression p) h'
  -- one start of the supply that is long enough for both
  obtain ⟨hreply, -, rfl⟩ := hmoves (max moves moves' + 2) (by omega)
  obtain ⟨hreply', -, rfl⟩ := hmoves' (max moves moves' + 2) (by omega)
  let parser : Parser :=
    ⟨.standard, Token.start supply (max moves moves' + 2), pulled, diagnostics⟩
  obtain ⟨hdiagnostics, hpulled, hleft⟩ :=
    (parser.expression_of_le rfl hle).2 e (Parser.Reply.expression.inj hreply)
  exact ⟨hdiagnostics, hpulled, fun e' he' =>
    hleft e' ((Parser.Reply.expression.inj hreply').trans he')⟩

end Host

/-- **Reading above a tighter floor comes first.** Let a parser stand anywhere, under the rules of
the language. Where it reads nothing above a floor, it reads nothing above a looser one, and then
stands where it would otherwise stand, with the same diagnostics. Where it reads an expression, it
finds the same diagnostics first above the looser floor, pulls no fewer tokens, and what it reads is
that expression or has it as its left operand, or as the left operand of that, and so on. This goes
for supplies that never come to an end too, as far as reading does. -/
theorem tighter_floor_first {p q : Strength} (hle : p ≤ q) :
    (∀ parser : Parser, parser.rules = .standard →
      ((parser.expression q).1 = none → parser.expression p = parser.expression q) ∧
      ∀ e, (parser.expression q).1 = some e →
        (parser.expression q).2.diagnostics <+: (parser.expression p).2.diagnostics ∧
        (parser.expression q).2.pulled ≤ (parser.expression p).2.pulled ∧
        ∀ e', (parser.expression p).1 = some e' → e.LeftPart e') ∧
    ∀ (supply : Nat → Token) (pulled : Nat) (diagnostics : List Diagnostic) (host' : Host .none),
      let host := Host.ofStream .none .standard supply pulled diagnostics
      (host.Ends (.expression q) (.expression none) host' →
        host.Ends (.expression p) (.expression none) host') ∧
      ∀ e, host.Ends (.expression q) (.expression (some e)) host' → ∀ value' host'',
        host.Ends (.expression p) (.expression value') host'' →
          host'.diagnostics <+: host''.diagnostics ∧ host'.pulled ≤ host''.pulled ∧
          ∀ e', value' = some e' → e.LeftPart e' :=
  ⟨fun parser hrules => parser.expression_of_le hrules hle, fun _ _ _ _ =>
    ⟨Host.Ends.loosen hle, fun _ h _ _ h' => h.initial hle h'⟩⟩

/-- In `if (x) { ) } * a - b` the block has a statement that is dropped. Above the floor of sums
there is a product to be read, and above the lowest the difference of which it is the left operand.
And where commas without end follow `!`, there is nothing to be read above either. -/
theorem tighter_floor_first_difference :
    let product : Expr := .binary ⟨.asterisk, "*"⟩ (.conditional ⟨.kwIf, "if"⟩
      (.reference ⟨⟨.ident, "x"⟩, "x"⟩) ⟨⟨.lbrace, "\x7b"⟩, []⟩ none) .mul
      (.reference ⟨⟨.ident, "a"⟩, "a"⟩)
    let parser := Parser.ofTokens [⟨.kwIf, "if"⟩, ⟨.lparen, "("⟩, ⟨.ident, "x"⟩, ⟨.rparen, ")"⟩,
      ⟨.lbrace, "\x7b"⟩, ⟨.rparen, ")"⟩, ⟨.rbrace, "\x7d"⟩, ⟨.asterisk, "*"⟩, ⟨.ident, "a"⟩,
      ⟨.minus, "-"⟩, ⟨.ident, "b"⟩]
    let host := Host.ofStream .none .standard
      (fun n => if n = 0 then ⟨.bang, "!"⟩ else ⟨.comma, ","⟩) 2 []
    let host' := Host.ofStream .none .standard (fun _ => ⟨.comma, ","⟩) 3 [.noOpening .comma]
    ((parser.expression .sum).1 = some product ∧
      (parser.expression .sum).2.diagnostics = [.noOpening .rparen] ∧
      (parser.expression .sum).2.diagnostics <+: (parser.expression .lowest).2.diagnostics ∧
      (parser.expression .sum).2.pulled ≤ (parser.expression .lowest).2.pulled ∧
      product.LeftPart (.binary ⟨.minus, "-"⟩ product .sub (.reference ⟨⟨.ident, "b"⟩, "b"⟩))) ∧
    host.Ends (.expression .product) (.expression none) host' ∧
    host.Ends (.expression .lowest) (.expression none) host' := by
  intro product parser host host'
  have hsum : (parser.expression .sum).1 = some product := by decide +kernel
  have hlowest : (parser.expression .lowest).1 =
      some (.binary ⟨.minus, "-"⟩ product .sub (.reference ⟨⟨.ident, "b"⟩, "b"⟩)) := by
    decide +kernel
  have hends : host.Ends (.expression .product) (.expression none) host' := ⟨2, rfl⟩
  obtain ⟨hdiagnostics, hpulled, hleft⟩ :=
    ((tighter_floor_first (p := .lowest) (q := .sum) (by decide)).1 parser rfl).2 product hsum
  exact ⟨⟨hsum, by decide +kernel, hdiagnostics, hpulled, hleft _ hlowest⟩, hends,
    ((tighter_floor_first (p := .lowest) (q := .product) (by decide)).2 _ 2 [] host').1 hends⟩

end Treewalk
