import Treewalk.Proofs.Grammar.FirstFault
import Treewalk.Proofs.Plain
import Treewalk.Proofs.Rendering

/-!
# Quoted operations are programs

An overflow quotes its operation as two integers with the operator between them. The quotation is a
source text, and evaluating it applies the operator to the two integers again: a minus sign in front
of a numeral binds tighter than any operator between two operands, so either side is read whole.

The one exception is the least integer. Its minus sign is a token of its own, and the digits behind
it are one more than an integer can be, so a text that has it on either side is rejected.
-/

namespace Treewalk

/-! ## Integers as text -/

namespace Integer

/-- The least integer. Its opposite is not an integer. -/
def least : Integer := ⟨-9223372036854775808, by decide, by decide⟩

/-- The opposite of every other one is. -/
theorem neg_least_lt_of_ne {a : Integer} (h : a ≠ least) : -9223372036854775808 < a.val := by
  have hne : a.val ≠ -9223372036854775808 := fun heq => h (Integer.ext heq)
  have := a.least_le
  omega

theorem isDigit_of_mem_digits {n : Nat} {c : Char} (h : c ∈ digits n) : c.isDigit = true :=
  Nat.isDigit_of_mem_toDigits (by decide) (by decide) h

/-- Digits are a numeral. -/
theorem spelled_digits (n : Nat) : Token.Kind.int.Spelled (digits n) :=
  ⟨Nat.toDigits_ne_nil, fun _ hc => Token.isDigit_iff.mp (isDigit_of_mem_digits hc)⟩

/-- A run of digits denotes a number, whatever the digits are. -/
theorem ofDigits?_of_isDigit {cs : List Char} (hne : cs ≠ []) (h : ∀ c ∈ cs, c.isDigit = true) :
    ofDigits? cs = some (Nat.ofDigitChars 10 cs 0) := by
  rw [ofDigits?, if_pos ⟨hne, List.all_eq_true.mpr h⟩]

/-- Digits denote the number they are the digits of. -/
theorem ofDigits?_digits (n : Nat) : ofDigits? (digits n) = some n := by
  rw [ofDigits?_of_isDigit (spelled_digits n).1 fun _ hc => isDigit_of_mem_digits hc, digits,
    Nat.ofDigitChars_toDigits (by decide) (by decide)]

/-- Digits without a sign are read as they stand. -/
theorem ofText?_of_isDigit {cs : List Char} (h : ∀ c ∈ cs, c.isDigit = true) :
    ofText? (String.ofList cs) = (ofDigits? cs).bind fun n => ofInt? n := by
  rw [ofText?, String.toList_ofList]
  unfold ofChars?
  split
  · -- neither sign is a digit
    exact absurd (h _ List.mem_cons_self) (by decide)
  · exact absurd (h _ List.mem_cons_self) (by decide)
  · rfl

/-- **Digits are read back**, if 64 bits hold the number. -/
theorem ofText?_digits (n : Nat) : ofText? (String.ofList (digits n)) = ofInt? n := by
  rw [ofText?_of_isDigit fun _ hc => isDigit_of_mem_digits hc, ofDigits?_digits, Option.bind_some]

/-- The minus sign in front of a negative integer. -/
def sign : Token := ⟨.minus, "-"⟩

/-- The numeral in the text of an integer. -/
def numeral (a : Integer) : Token := ⟨.int, String.ofList (digits a.val.natAbs)⟩

/-- The tokens in the text of an integer. -/
def tokens (a : Integer) : List Token :=
  if a.val < 0 then [sign, a.numeral] else [a.numeral]

variable (a : Integer)

/-- The text of an integer is scanned as its tokens, in front of what is no digit. -/
theorem scan_text {rest : List Char} (hrest : ∀ d ∈ rest.head?, d.isDigit = false) :
    Token.scan (a.text.toList ++ rest) = a.tokens ++ Token.scan rest := by
  have hliteral : a.numeral.literal.toList = digits a.val.natAbs := String.toList_ofList
  have hspelled : a.numeral.kind.Spelled a.numeral.literal.toList :=
    hliteral ▸ spelled_digits a.val.natAbs
  have hnumeral : Token.scan (digits a.val.natAbs ++ rest) = a.numeral :: Token.scan rest :=
    hliteral ▸ Token.scan_spelled hspelled hrest
  unfold text tokens
  split
  · rw [String.toList_ofList, List.cons_append]
    have hsign : Token.scan ('-' :: (digits a.val.natAbs ++ rest)) =
        sign :: Token.scan (digits a.val.natAbs ++ rest) :=
      Token.scan_spelled (t := sign) rfl fun _ _ => rfl
    exact hsign.trans (congrArg (sign :: ·) hnumeral)
  · rw [String.toList_ofList, hnumeral]
    rfl

/-- The first of the tokens of an integer opens an expression. -/
theorem exists_tokens_eq : ∃ t next, a.tokens = t :: next ∧ (t.kind = .minus ∨ t.kind = .int) := by
  unfold tokens
  split
  · exact ⟨sign, _, rfl, .inl rfl⟩
  · exact ⟨a.numeral, _, rfl, .inr rfl⟩

variable {a}

/-- **Any integer but the least is an expression**, which evaluates to it wherever it is. -/
theorem exists_spells (h : a ≠ least) :
    ∃ e, Grammar.Spells .unary a.tokens e ∧ ∀ env, e.eval env = (.integer a, env) := by
  have hlt := neg_least_lt_of_ne h
  have hle := a.le_greatest
  -- the numeral is read on its own, so what has to fit is the number without its sign
  obtain ⟨m, hm⟩ : ∃ m : Integer, m.val = a.val.natAbs :=
    ⟨⟨a.val.natAbs, by omega, by omega⟩, rfl⟩
  have hread : ofText? a.numeral.literal = some m := by
    rw [numeral, ofText?_digits, ← hm, ofInt?_val]
  have hspells : Grammar.Spells .unary [a.numeral] (.integer a.numeral m) :=
    .of_primary (.numeral ⟨a.numeral, rfl⟩ m hread) trivial
  unfold tokens
  split
  · rename_i hneg
    refine ⟨.unary sign .negate (.integer a.numeral m), hspells.operated rfl, fun env => ?_⟩
    have hval : -m.val = a.val := by omega
    have happly : UnaryOp.negate.apply (.integer m) = .integer a := by
      rw [UnaryOp.apply, hval, Value.exactly, ofInt?_val]
    rw [Expr.eval_unary]
    exact congrArg (·, env) happly
  · rename_i hneg
    obtain rfl : m = a := Integer.ext (by omega)
    exact ⟨.integer m.numeral m, hspells, fun env => rfl⟩

end Integer

/-! ## Operators as text -/

/-- An overflow says what it was told to say. -/
theorem Value.eq_of_exactly_eq_overflow {n : Int} {expression text : String}
    (h : exactly n expression = .error (.overflow text)) : text = expression := by
  unfold exactly at h
  split at h
  · cases h
  · cases h
    rfl

namespace BinaryOp

/-- The kind of token that spells an operator. -/
def kind : BinaryOp → Token.Kind
  | .add => .plus
  | .sub => .minus
  | .mul => .asterisk
  | .div => .slash
  | .less => .lt
  | .greater => .gt
  | .equal => .eq
  | .notEqual => .notEq

/-- The token that spells an operator. -/
def token (op : BinaryOp) : Token := ⟨op.kind, op.symbol⟩

variable (op : BinaryOp)

theorem ofKind?_kind : ofKind? op.kind = some op := by
  cases op <;> rfl

theorem spelled_token : op.token.kind.Spelled op.token.literal.toList := by
  cases op <;> rfl

/-- **A quotation is scanned** as the tokens of its three parts. -/
theorem ofSource_quote (l r : Integer) :
    Token.ofSource (op.quote l r) = l.tokens ++ op.token :: r.tokens := by
  have htext : (op.quote l r).toList =
      l.text.toList ++ ' ' :: (op.token.literal.toList ++ ' ' :: r.text.toList) := by
    simp only [quote, String.toList_append, List.append_assoc]
    rfl
  have hright : Token.scan r.text.toList = r.tokens := by
    have hscan : Token.scan (r.text.toList ++ []) = r.tokens ++ Token.scan [] := r.scan_text nofun
    rwa [List.append_nil, Token.scan_nil, List.append_nil] at hscan
  have hspace : ∀ d ∈ (' ' :: (op.token.literal.toList ++ ' ' :: r.text.toList)).head?,
      d.isDigit = false := by
    intro d hd
    obtain rfl : ' ' = d := Option.some.inj hd
    rfl
  rw [Token.ofSource, htext, l.scan_text hspace, Token.scan_blank rfl,
    Grammar.scan_spelled_space op.spelled_token, hright]

variable {op}

/-- **An overflow quotes its operation.** -/
theorem quote_of_apply_eq_overflow {left right : Value} {text : String}
    (h : op.apply left right = .error (.overflow text)) :
    ∃ l r, left = .integer l ∧ right = .integer r ∧ text = op.quote l r := by
  unfold apply at h
  split at h
  · rename_i l r
    refine ⟨l, r, rfl, rfl, ?_⟩
    cases op with
    | add | sub | mul => exact Value.eq_of_exactly_eq_overflow h
    | div =>
      unfold applyIntegers at h
      simp only at h
      split at h
      · cases h
      · exact Value.eq_of_exactly_eq_overflow h
    | less | greater | equal | notEqual => cases h
  · split at h
    · cases h
    · cases h
    · split at h <;> cases h

end BinaryOp

/-! ## Accepted quotations -/

namespace Grammar

open Rules Reading

/-- Two operands that bind tighter than any operator between them are an expression with it. -/
theorem Spells.operation {left right : List Token} {l r : Expr} (op : BinaryOp)
    (hl : Spells .unary left l) (hr : Spells .unary right r) :
    Spells .equality (left ++ op.token :: right) (.binary op.token l op r) := by
  obtain ⟨level, hlevel⟩ := Level.exists_operator op.ofKind?_kind
  have hle : level.strength ≤ Level.unary.strength :=
    Nat.le_trans (Level.strength_le_product hlevel) (by decide)
  have hoperand : level.operand.strength ≤ Level.unary.strength := by
    cases level with
    | unary | primary => cases op <;> cases hlevel
    | equality | order | sum | product => decide
  have hequality : Level.equality.strength ≤ level.strength := by
    cases level <;> decide
  have hsign : level.operator? op.token.kind = some op := hlevel
  exact ((hl.loosen hle).joined hsign (hr.loosen hoperand)).loosen hequality

/-- A text that is an expression is accepted as that one statement. -/
theorem Spells.ofSource_eq {source : String} {e : Expr}
    (h : Spells .equality (Token.ofSource source) e) :
    ∃ t, Program.ofSource source = .ok ⟨[.expression t e]⟩ := by
  obtain ⟨p, hsep, htokens, rfl⟩ := h
  have hnil : (Token.next []).kind = .eof := rfl
  have hpassage : (Passage.cons (.expression p none) .nil).Separated := ⟨hsep, nofun, trivial⟩
  have hread := Passage.readProgram_tokens hnil _ hpassage
  have hall : (Passage.cons (.expression p none) .nil).tokens ++ [] = Token.ofSource source := by
    simp only [Passage.tokens, Sentence.tokens, stopTokens, Option.toList_none, List.map_nil,
      List.append_nil, htokens]
  rw [hall] at hread
  exact ⟨_, Program.ofSource_eq_ok_iff.mpr ⟨by rw [hread], by rw [hread]; rfl⟩⟩

end Grammar

/-- A program of one expression yields its value, taken apart if it is a returned one. -/
theorem Program.eval_expression (t : Token) (e : Expr) (env : Env) :
    (⟨[.expression t e]⟩ : Program).eval env =
      (some (e.eval env).1.unwrapped, (e.eval env).2) := by
  have hrun : Stmt.evalAll none [.expression t e] env = (some (e.eval env).1, (e.eval env).2) := by
    rw [Stmt.evalAll_cons]
    split <;> rfl
  rw [Program.eval, hrun]
  rfl

/-- An operator between two operands that evaluate to integers is applied to the integers. -/
theorem Expr.eval_operation {left right : Expr} {l r : Integer}
    (hl : ∀ env, left.eval env = (.integer l, env)) (hr : ∀ env, right.eval env = (.integer r, env))
    (t : Token) (op : BinaryOp) (env : Env) :
    (Expr.binary t left op right).eval env = (op.apply (.integer l) (.integer r), env) := by
  rw [Expr.eval_binary, hl, hr]
  rfl

/-- **Evaluating a quotation applies the operator.** -/
theorem evaluate_quote_of_ne_least {l r : Integer} (hl : l ≠ .least) (hr : r ≠ .least)
    (op : BinaryOp) (env : Env) :
    evaluate (op.quote l r) env = .ok (some (op.apply (.integer l) (.integer r)), env) := by
  obtain ⟨left, hleft, hevall⟩ := Integer.exists_spells hl
  obtain ⟨right, hright, hevalr⟩ := Integer.exists_spells hr
  have hspells : Grammar.Spells .equality (Token.ofSource (op.quote l r))
      (.binary op.token left op right) := by
    rw [op.ofSource_quote]
    exact .operation op hleft hright
  obtain ⟨t, hsource⟩ := hspells.ofSource_eq
  have hplain : (op.apply (.integer l) (.integer r)).unwrapped =
      op.apply (.integer l) (.integer r) := by
    have hne := op.apply_ne_returned (.integer l) (.integer r)
    cases hvalue : op.apply (.integer l) (.integer r) with
    | returned v => exact absurd hvalue (hne v)
    | integer _ | boolean _ | null | error _ => rfl
  rw [evaluate_of_ofSource hsource, Program.eval_expression, Expr.eval_operation hevall hevalr,
    hplain]

/-! ## Rejected quotations -/

namespace Grammar

open Rules Reading

/-- A numeral that 64 bits do not hold is no operand. -/
theorem readOperand_of_ofText?_eq_none (token : Of .int)
    (h : Integer.ofText? token.val.literal = none) (rest : List Token) :
    standard.readOperand (token.val :: rest) = .fail (.invalidInteger token.val.literal) := by
  have hopen : standard.opening token.val.kind = some (.atom .integer) := by
    rw [token.property]
    rfl
  rw [readOperand, hopen]
  simp only [Atom.read, h]
  rfl

/-- The minus sign of the least integer is read, and the digits behind it are refused. -/
theorem readExpr_least (floor : Strength) (rest : List Token) :
    standard.readExpr floor (Integer.least.tokens ++ rest) =
      ⟨none, 1, [.invalidInteger "9223372036854775808"]⟩ := by
  have htokens : Integer.least.tokens = [Integer.sign, Integer.least.numeral] := rfl
  have hread : Integer.ofText? Integer.least.numeral.literal = none := by
    rw [Integer.numeral, Integer.ofText?_digits]
    rfl
  have hnumeral : standard.readOperand (Integer.least.numeral :: rest) =
      .fail (.invalidInteger "9223372036854775808") :=
    readOperand_of_ofText?_eq_none ⟨Integer.least.numeral, rfl⟩ hread rest
  have hinner : standard.readExpr .unary (Integer.least.numeral :: rest) =
      .fail (.invalidInteger "9223372036854775808") := by
    rw [readExpr, hnumeral]
    rfl
  have hsigned : standard.readOperand (Integer.sign :: Integer.least.numeral :: rest) =
      ⟨none, 1, [.invalidInteger "9223372036854775808"]⟩ := by
    have hopen : standard.opening Integer.sign.kind = some (.unary .negate) := rfl
    rw [readOperand, hopen]
    simp only [hinner]
    rfl
  rw [htokens, List.cons_append, List.cons_append, List.nil_append, readExpr, hsigned]
  rfl

/-- Behind a left operand that is read, the right operand is read next. -/
theorem Spells.head?_diagnostics_right {left right : List Token} {l : Expr} {op : BinaryOp}
    {d : Diagnostic} (hl : Spells .unary left l)
    (hr : ∀ floor, (standard.readExpr floor right).diagnostics.head? = some d) :
    (standard.readExpr .lowest (left ++ op.token :: right)).diagnostics.head? = some d := by
  obtain ⟨p, hsep, rfl, -⟩ := hl
  have helse : op.token.kind ≠ .kwElse := by
    cases op <;> decide
  have hlt : Strength.lowest < op.token.kind.strength := by
    cases op <;> decide
  -- the left operand ends at the operator, whichever it is, and the right one is read above it
  obtain ⟨last, hlast⟩ := exists_drop_eq p.tokens_ne_nil
  have hright : (((standard.readExpr op.token.kind.strength right).shift 1).map
      (Option.map (Expr.binary op.token p.tree op))).diagnostics.head? = some d := hr _
  rw [p.passes hsep .lowest (op.token :: right) (by decide) (stops_unary _) helse, hlast,
    readMore_of_operator op.ofKind?_kind hlt, diagnostics_shift, diagnostics_shift]
  exact head?_diagnostics_andThen hright _

/-- The first fault of an expression is the first fault of a program that starts with it. -/
theorem head?_diagnostics_readProgram {t : Token} {next : List Token} {d : Diagnostic}
    (hkind : t.kind = .minus ∨ t.kind = .int)
    (h : (standard.readExpr .lowest (t :: next)).diagnostics.head? = some d) :
    (standard.readProgram (t :: next)).diagnostics.head? = some d := by
  have hne : t.kind ≠ .eof ∧ t.kind ≠ .kwLet ∧ t.kind ≠ .kwReturn := by
    rcases hkind with hkind | hkind <;> rw [hkind] <;> decide
  obtain ⟨heof, hlet, hreturn⟩ := hne
  rw [readProgram, if_neg heof, readStmt, if_neg hlet, if_neg hreturn]
  exact head?_diagnostics_followedBy (head?_diagnostics_andThen h _) _

/-- **The least integer is what is wrong with a quotation** that has it. -/
theorem head?_diagnostics_quote {l r : Integer} (h : l = .least ∨ r = .least) (op : BinaryOp) :
    (standard.readProgram (Token.ofSource (op.quote l r))).diagnostics.head? =
      some (.invalidInteger "9223372036854775808") := by
  have hleast : ∀ floor rest,
      (standard.readExpr floor (Integer.least.tokens ++ rest)).diagnostics.head? =
        some (.invalidInteger "9223372036854775808") := by
    intro floor rest
    rw [readExpr_least]
    rfl
  have hexpr : (standard.readExpr .lowest (l.tokens ++ op.token :: r.tokens)).diagnostics.head? =
      some (.invalidInteger "9223372036854775808") := by
    by_cases hl : l = .least
    · rw [hl]
      exact hleast _ _
    · obtain ⟨left, hleft, -⟩ := Integer.exists_spells hl
      refine hleft.head?_diagnostics_right fun floor => ?_
      have hright := hleast floor []
      rwa [List.append_nil, ← h.resolve_left hl] at hright
  obtain ⟨t, next, htokens, hkind⟩ := l.exists_tokens_eq
  rw [op.ofSource_quote]
  rw [htokens, List.cons_append] at hexpr ⊢
  exact head?_diagnostics_readProgram hkind hexpr

end Grammar

/-- A text whose reading has a diagnostic is rejected, with all of them. -/
theorem evaluate_of_head?_diagnostics {source : String} {d : Diagnostic}
    (h : (Rules.standard.readProgram (Token.ofSource source)).diagnostics.head? = some d)
    (env : Env) : ∃ others, evaluate source env = .error (d :: others) := by
  obtain ⟨others, hdiagnostics⟩ := List.head?_eq_some_iff.mp h
  have hrejected : Program.ofSource source = .error (d :: others) := by
    rw [Program.ofSource_eq, hdiagnostics, if_neg (List.cons_ne_nil d others)]
  refine ⟨others, ?_⟩
  rw [evaluate, hrejected]
  rfl

/-- **Operators mean the same in a text as when they are applied.** Two integers with an operator
between them, apart from the least integer, are accepted as a text that evaluates to what the
operator makes of them and leaves the environment as it was; so an overflow between such operands
is what evaluating its own quotation yields. With the least integer on either side the text is
rejected, for its digits first of all, and the environment is left as it was too. -/
theorem evaluate_quotation (op : BinaryOp) (env : Env) :
    (∀ l r : Integer, l ≠ .least → r ≠ .least →
        evaluate (l.text ++ " " ++ op.symbol ++ " " ++ r.text) env =
          .ok (some (op.apply (.integer l) (.integer r)), env)) ∧
      (∀ (left right : Value) (text : String), left ≠ .integer .least → right ≠ .integer .least →
        op.apply left right = .error (.overflow text) →
          evaluate text env = .ok (some (.error (.overflow text)), env)) ∧
      (∀ l r : Integer, l = .least ∨ r = .least → ∃ others,
        evaluate (l.text ++ " " ++ op.symbol ++ " " ++ r.text) env =
            .error (.invalidInteger "9223372036854775808" :: others) ∧
          Session.obey env (.evaluate (l.text ++ " " ++ op.symbol ++ " " ++ r.text)) =
            (.rejected (.invalidInteger "9223372036854775808" :: others), env)) := by
  refine ⟨fun l r hl hr => evaluate_quote_of_ne_least hl hr op env, ?_, ?_⟩
  · intro left right text hleft hright hover
    obtain ⟨l, r, rfl, rfl, rfl⟩ := BinaryOp.quote_of_apply_eq_overflow hover
    have hl : l ≠ .least := fun heq => hleft (congrArg Value.integer heq)
    have hr : r ≠ .least := fun heq => hright (congrArg Value.integer heq)
    rw [evaluate_quote_of_ne_least hl hr, hover]
  · intro l r hleast
    obtain ⟨others, hrejected⟩ : ∃ others,
        evaluate (l.text ++ " " ++ op.symbol ++ " " ++ r.text) env =
          .error (.invalidInteger "9223372036854775808" :: others) :=
      evaluate_of_head?_diagnostics (Grammar.head?_diagnostics_quote hleast op) env
    refine ⟨others, hrejected, ?_⟩
    rw [Session.obey, hrejected]

/-- A minus sign is read in front of either operand, also behind another one. The greatest integer
and one more overflow, in a quotation that does so again; behind the least integer's minus sign the
digits are refused. -/
theorem evaluate_quotation_signs :
    evaluate "-7 / -2" .empty = .ok (some (.integer ⟨3, by decide, by decide⟩), .empty) ∧
      evaluate "5 - -3" .empty = .ok (some (.integer ⟨8, by decide, by decide⟩), .empty) ∧
      evaluate "9223372036854775807 + 1" .empty =
        .ok (some (.error (.overflow "9223372036854775807 + 1")), .empty) ∧
      ∃ others, evaluate "5 - -9223372036854775808" .empty =
          .error (.invalidInteger "9223372036854775808" :: others) ∧
        Session.obey .empty (.evaluate "5 - -9223372036854775808") =
          (.rejected (.invalidInteger "9223372036854775808" :: others), .empty) := by
  have hquotient := (evaluate_quotation .div .empty).1 ⟨-7, by decide, by decide⟩
    ⟨-2, by decide, by decide⟩ (by decide) (by decide)
  have hdifference := (evaluate_quotation .sub .empty).1 ⟨5, by decide, by decide⟩
    ⟨-3, by decide, by decide⟩ (by decide) (by decide)
  have hover := (evaluate_quotation .add .empty).2.1
    (.integer ⟨9223372036854775807, by decide, by decide⟩) (.integer ⟨1, by decide, by decide⟩)
    "9223372036854775807 + 1" (by decide) (by decide) (by decide +kernel)
  have hleast := (evaluate_quotation .sub .empty).2.2 ⟨5, by decide, by decide⟩ .least (.inr rfl)
  exact ⟨hquotient, hdifference, hover, hleast⟩

end Treewalk
