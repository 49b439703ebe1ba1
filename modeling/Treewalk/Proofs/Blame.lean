import Treewalk.Proofs.Dependence
import Treewalk.Proofs.Exactness
import Treewalk.Proofs.Frame

/-!
# Faults tell the truth

A fault says what went wrong: a name that is not bound, categories that do not go together, an
operation whose result is too large. `Fault.Truthful` states what each of these has to be true of,
namely of the tree that was evaluated and of the environment as it was before. The main statement is
that no other fault is yielded where all bindings are plain.

A fault can be raised deep inside a tree and late in a run, when the environment is no longer the
one the run has started in. Evaluation takes no binding away, so a name that is not bound then was
not bound before (`Fault.Truthful.of_writes`). And what an operator is applied to is never a
carrier, so a fault mentions the categories of plain values only.
-/

namespace Treewalk

/-! ## The operators a tree uses -/

mutual

/-- The operators between operands in an expression, at any depth. -/
def Expr.operators : Expr → List BinaryOp
  | .reference _ | .integer _ _ | .boolean _ _ => []
  | .unary _ _ operand => operand.operators
  | .binary _ left op right => op :: (left.operators ++ right.operators)
  | .conditional _ condition consequence alternative =>
    condition.operators ++ consequence.operators ++ Block.operatorsIfAny alternative

/-- The operators between operands in a block. -/
def Block.operators : Block → List BinaryOp
  | ⟨_, statements⟩ => Stmt.operatorsAll statements

/-- The operators between operands in a block, if there is one. -/
def Block.operatorsIfAny : Option Block → List BinaryOp
  | none => []
  | some body => body.operators

/-- The operators between operands in a statement. -/
def Stmt.operators : Stmt → List BinaryOp
  | .binding _ _ value | .result _ value => Expr.operatorsIfAny value
  | .expression _ value => value.operators
  | .block body => body.operators

/-- The operators between operands in an expression, if there is one. -/
def Expr.operatorsIfAny : Option Expr → List BinaryOp
  | none => []
  | some value => value.operators

/-- The operators between operands in statements. -/
def Stmt.operatorsAll : List Stmt → List BinaryOp
  | [] => []
  | statement :: rest => statement.operators ++ Stmt.operatorsAll rest

end

/-! ## What faults say -/

/-- The category is one of plain values. -/
def Category.IsPlain (category : Category) : Prop :=
  category = .integer ∨ category = .boolean ∨ category = .null

theorem Value.IsPlain.category {v : Value} (h : v.IsPlain) : v.category.IsPlain := by
  cases v with
  | integer _ => exact .inl rfl
  | boolean _ => exact .inr (.inl rfl)
  | null => exact .inr (.inr rfl)
  | returned _ | error _ => exact h.elim

/-- What a fault says is true. It was raised in a tree that reads the names `read` and uses the
operators `used`, and that was evaluated in `env`. -/
def Fault.Truthful (env : Env) (read : String → Prop) (used : BinaryOp → Prop) : Fault → Prop
  | .unbound name => read name ∧ env.get? name = none
  | .mismatch left op right =>
    left ≠ right ∧ left.IsPlain ∧ right.IsPlain ∧ used op ∧ op ≠ .equal ∧ op ≠ .notEqual
  | .unknownBinary left op right =>
    left = right ∧ (left = .boolean ∨ left = .null) ∧ used op ∧ op ≠ .equal ∧ op ≠ .notEqual
  | .unknownUnary op operand => op = .negate ∧ (operand = .boolean ∨ operand = .null)
  | .divisionByZero _ => used .div
  | .overflow text =>
    (∃ (op : BinaryOp) (a b : Integer) (n : Int), op.IsArithmetic ∧ used op ∧
      op.ideal? a.val b.val = some n ∧ ¬Integer.Holds n ∧
      text = a.text ++ " " ++ op.symbol ++ " " ++ b.text) ∨
    text = "-(-9223372036854775808)"

section

variable {env env' : Env} {read : String → Prop} {used : BinaryOp → Prop} {fault : Fault}

/-- **What is true of a later environment was true before.** Only what is said of a name depends on
the environment, and a name that is bound stays bound. -/
theorem Fault.Truthful.of_writes {allowed : String → Value → Prop}
    (h : fault.Truthful env' read used) (hwrites : env.Writes allowed env') :
    fault.Truthful env read used := by
  cases fault with
  | unbound name =>
    obtain ⟨hread, hnone⟩ := h
    refine ⟨hread, Option.not_isSome_iff_eq_none.mp fun hbound => ?_⟩
    have hstill := hwrites.isSome_get? hbound
    rw [hnone] at hstill
    cases hstill
  | mismatch _ _ _ | unknownBinary _ _ _ | unknownUnary _ _ | divisionByZero _ | overflow _ =>
    exact h

/-! ## Operators -/

/-- Arithmetic raises no fault but an overflow, and only for a result that does not fit. -/
theorem Value.eq_overflow_of_exactly {n : Int} {expression : String}
    (h : exactly n expression = .error fault) :
    ¬Integer.Holds n ∧ fault = .overflow expression := by
  by_cases hholds : Integer.Holds n
  · obtain ⟨a, -, hvalue⟩ := exactly_of_holds hholds expression
    rw [hvalue] at h
    cases h
  · rw [exactly_of_not_holds hholds] at h
    exact ⟨hholds, (Value.error.inj h).symm⟩

/-- Only the least integer has a negation that does not fit. -/
theorem Integer.text_of_not_holds_neg {a : Integer} (h : ¬Holds (-a.val)) :
    a.text = "-9223372036854775808" := by
  have hleast := a.least_le
  have hgreatest := a.le_greatest
  obtain rfl : a = ⟨-9223372036854775808, by decide, by decide⟩ := by
    refine Integer.ext ?_
    show a.val = -9223372036854775808
    unfold Holds at h
    omega
  decide +kernel

theorem UnaryOp.truthful_of_apply {op : UnaryOp} {operand : Value} (hplain : operand.IsPlain)
    (h : op.apply operand = .error fault) : fault.Truthful env read used := by
  unfold apply at h
  split at h
  · cases h
  · cases h
  · cases h
  · rename_i a
    obtain ⟨hover, rfl⟩ := Value.eq_overflow_of_exactly h
    refine .inr ?_
    rw [Integer.text_of_not_holds_neg hover]
    decide +kernel
  · rename_i hinteger
    obtain rfl := Value.error.inj h
    refine ⟨rfl, ?_⟩
    cases operand with
    | integer a => exact absurd rfl (hinteger a)
    | boolean _ => exact .inl rfl
    | null => exact .inr rfl
    | returned _ | error _ => exact hplain.elim

namespace BinaryOp

variable {op : BinaryOp}

theorem isArithmetic_of_ideal? {a b n : Int} (h : op.ideal? a b = some n) : op.IsArithmetic := by
  cases op with
  | add => exact .inl rfl
  | sub => exact .inr (.inl rfl)
  | mul => exact .inr (.inr (.inl rfl))
  | div => exact .inr (.inr (.inr rfl))
  | less | greater | equal | notEqual => cases h

theorem truthful_of_applyIntegers {a b : Integer} (hused : used op)
    (h : op.apply (.integer a) (.integer b) = .error fault) : fault.Truthful env read used := by
  cases hideal : op.ideal? a.val b.val with
  | some n =>
    rw [apply_of_ideal? hideal] at h
    obtain ⟨hover, rfl⟩ := Value.eq_overflow_of_exactly h
    exact .inl ⟨op, a, b, n, isArithmetic_of_ideal? hideal, hused, hideal, hover, rfl⟩
  | none =>
    -- without an exact result the operator compares, or divides by zero
    cases op with
    | add | sub | mul => cases hideal
    | div =>
      obtain ⟨-, hzero⟩ := eq_div_of_ideal?_eq_none (.inr (.inr (.inr rfl))) hideal
      rw [apply_div_zero hzero] at h
      obtain rfl := Value.error.inj h
      exact hused
    | less | greater | equal | notEqual => cases h

/-- **The fault of an operator between plain values is truthful.** -/
theorem truthful_of_apply {left right : Value} (hl : left.IsPlain) (hr : right.IsPlain)
    (hused : used op) (h : op.apply left right = .error fault) : fault.Truthful env read used := by
  by_cases hintegers : ∃ a b, left = .integer a ∧ right = .integer b
  · obtain ⟨a, b, rfl, rfl⟩ := hintegers
    exact truthful_of_applyIntegers hused h
  unfold apply at h
  split at h
  · exact absurd ⟨_, _, rfl, rfl⟩ hintegers
  split at h
  · cases h
  · cases h
  · rename_i hequal hnotEqual
    split at h
    · rename_i hcategory
      obtain rfl := Value.error.inj h
      refine ⟨hcategory, ?_, hused, hequal, hnotEqual⟩
      -- two values of one category, and not both integers
      rcases hl.category with hinteger | hother
      · cases left <;> cases hinteger
        cases right <;> cases hcategory
        exact absurd ⟨_, _, rfl, rfl⟩ hintegers
      · exact hother
    · rename_i hcategory
      obtain rfl := Value.error.inj h
      exact ⟨hcategory, hl.category, hr.category, hused, hequal, hnotEqual⟩

end BinaryOp

end

/-! ## Evaluation -/

/-- If the outcome is a fault, it is truthful. -/
def Reports (env : Env) (read : String → Prop) (used : BinaryOp → Prop) (outcome : Option Value) :
    Prop :=
  ∀ fault, outcome = some (.error fault) → fault.Truthful env read used

namespace Reports

variable {env env' : Env} {read : String → Prop} {used : BinaryOp → Prop} {v : Value}
  {outcome : Option Value}

theorem of_isPlain (h : v.IsPlain) : Reports env read used (some v) := by
  intro fault heq
  obtain rfl := Option.some.inj heq
  exact h.elim

theorem none : Reports env read used none := fun _ heq => nomatch heq

theorem returned (v : Value) : Reports env read used (some (.returned v)) :=
  fun _ heq => nomatch heq

theorem getD_null (h : Reports env read used outcome) :
    Reports env read used (some (outcome.getD .null)) := by
  cases outcome with
  | none => exact of_isPlain trivial
  | some v => exact h

/-- What is evaluated later reports to the environment before. -/
theorem of_keeps {between : Option Value} (h : Reports env' read used outcome)
    (hkeeps : Keeps env between env') : Reports env read used outcome :=
  fun fault heq => (h fault heq).of_writes hkeeps.writes

end Reports

section

variable {read : String → Prop} {used : BinaryOp → Prop}

mutual

theorem Expr.eval_reports : ∀ (e : Expr), (∀ name ∈ e.reads, read name) →
    (∀ op ∈ e.operators, used op) → ∀ {env : Env}, env.IsPlain →
    Reports env read used (some (e.eval env).1)
  | .reference name, hreads, _, env, hplain => by
    intro fault heq
    have hread : read name.value := hreads name.value List.mem_cons_self
    have heq : (env.get? name.value).getD (.error (.unbound name.value)) = .error fault :=
      Option.some.inj heq
    cases hget : env.get? name.value with
    | none =>
      rw [hget, Option.getD_none] at heq
      obtain rfl := Value.error.inj heq
      exact ⟨hread, hget⟩
    | some v =>
      rw [hget, Option.getD_some] at heq
      have hv := hplain.get? hget
      rw [heq] at hv
      exact hv.elim
  | .integer _ value, _, _, _, _ => .of_isPlain (v := .integer value) trivial
  | .boolean _ value, _, _, _, _ => .of_isPlain (v := .boolean value) trivial
  | .unary token op operand, hreads, hops, env, hplain => by
    have h := operand.eval_reports hreads hops hplain
    rw [Expr.eval_unary]
    split
    · exact h
    · rename_i hcarrier
      have hvalue := Value.isPlain_iff.mpr (Bool.eq_false_iff.mpr hcarrier)
      exact fun fault heq => UnaryOp.truthful_of_apply hvalue (Option.some.inj heq)
  | .binary token left op right, hreads, hops, env, hplain => by
    obtain ⟨hreadl, hreadr⟩ := List.forall_mem_append.mp hreads
    obtain ⟨hop, hoperands⟩ := List.forall_mem_cons.mp hops
    obtain ⟨hopl, hopr⟩ := List.forall_mem_append.mp hoperands
    have hkeeps := left.keeps_eval env
    have hleft := left.eval_reports hreadl hopl hplain
    have hright := (right.eval_reports hreadr hopr (hkeeps.writes.isPlain hplain)).of_keeps hkeeps
    rw [Expr.eval_binary]
    split
    · exact hleft
    · rename_i hcarrierl
      split
      · exact hright
      · rename_i hcarrierr
        have hvaluel := Value.isPlain_iff.mpr (Bool.eq_false_iff.mpr hcarrierl)
        have hvaluer := Value.isPlain_iff.mpr (Bool.eq_false_iff.mpr hcarrierr)
        exact fun fault heq =>
          BinaryOp.truthful_of_apply hvaluel hvaluer hop (Option.some.inj heq)
  | .conditional token condition consequence alternative, hreads, hops, env, hplain => by
    obtain ⟨hreadcb, hreada⟩ := List.forall_mem_append.mp hreads
    obtain ⟨hreadc, hreadb⟩ := List.forall_mem_append.mp hreadcb
    obtain ⟨hopcb, hopa⟩ := List.forall_mem_append.mp hops
    obtain ⟨hopc, hopb⟩ := List.forall_mem_append.mp hopcb
    have hkeeps := condition.keeps_eval env
    have hafter := hkeeps.writes.isPlain hplain
    rw [Expr.eval_conditional]
    split
    · exact condition.eval_reports hreadc hopc hplain
    · split
      · exact ((consequence.eval_reports hreadb hopb hafter).of_keeps hkeeps).getD_null
      · exact ((Block.evalIfAny_reports alternative hreada hopa hafter).of_keeps hkeeps).getD_null

theorem Block.eval_reports : ∀ (b : Block), (∀ name ∈ b.reads, read name) →
    (∀ op ∈ b.operators, used op) → ∀ {env : Env}, env.IsPlain →
    Reports env read used (b.eval env).1
  | ⟨_, statements⟩, hreads, hops, _, hplain =>
    Stmt.evalAll_reports statements hreads hops hplain .none

theorem Block.evalIfAny_reports : ∀ (b : Option Block),
    (∀ name ∈ Block.readsIfAny b, read name) → (∀ op ∈ Block.operatorsIfAny b, used op) →
    ∀ {env : Env}, env.IsPlain → Reports env read used (Block.evalIfAny b env).1
  | none, _, _, _, _ => .none
  | some b, hreads, hops, _, hplain => b.eval_reports hreads hops hplain

theorem Stmt.eval_reports : ∀ (s : Stmt), (∀ name ∈ s.reads, read name) →
    (∀ op ∈ s.operators, used op) → ∀ {env : Env}, env.IsPlain →
    Reports env read used (s.eval env).1
  | .binding token name value, hreads, hops, env, hplain => by
    have h := Expr.evalIfAny_reports value hreads hops hplain
    rw [Stmt.eval_binding]
    split
    · exact h
    · exact .none
  | .result token value, hreads, hops, env, hplain => by
    have h := Expr.evalIfAny_reports value hreads hops hplain
    rw [Stmt.eval_result]
    split
    · exact h
    · exact .returned _
  | .expression _ value, hreads, hops, _, hplain => value.eval_reports hreads hops hplain
  | .block body, hreads, hops, _, hplain => body.eval_reports hreads hops hplain

theorem Expr.evalIfAny_reports : ∀ (e : Option Expr),
    (∀ name ∈ Expr.readsIfAny e, read name) → (∀ op ∈ Expr.operatorsIfAny e, used op) →
    ∀ {env : Env}, env.IsPlain → Reports env read used (some (Expr.evalIfAny e env).1)
  | none, _, _, _, _ => .of_isPlain (v := .null) trivial
  | some e, hreads, hops, _, hplain => e.eval_reports hreads hops hplain

theorem Stmt.evalAll_reports : ∀ (statements : List Stmt) {last : Option Value},
    (∀ name ∈ Stmt.readsAll statements, read name) →
    (∀ op ∈ Stmt.operatorsAll statements, used op) → ∀ {env : Env}, env.IsPlain →
    Reports env read used last → Reports env read used (Stmt.evalAll last statements env).1
  | [], _, _, _, _, _, hlast => hlast
  | statement :: rest, _, hreads, hops, env, hplain, _ => by
    obtain ⟨hreads, hreadr⟩ := List.forall_mem_append.mp hreads
    obtain ⟨hops, hopr⟩ := List.forall_mem_append.mp hops
    have hkeeps := statement.keeps_eval env
    have hfirst := statement.eval_reports hreads hops hplain
    rw [Stmt.evalAll_cons]
    split
    · exact hfirst
    · rename_i hcarrier
      -- what is handed on as the last outcome is no carrier, so it reports anything
      have hlast : Reports (statement.eval env).2 read used (statement.eval env).1 := by
        intro fault heq
        rw [heq] at hcarrier
        exact absurd rfl hcarrier
      exact (Stmt.evalAll_reports rest hreadr hopr (hkeeps.writes.isPlain hplain) hlast).of_keeps
        hkeeps

end

end

namespace Program

/-- **Faults tell the truth.** Let all bindings be plain, on all levels. If a program yields a
fault, then what the fault says is true: a name that is not found is read in the program and was not
bound before it; operands that are said to be of different categories are, and operands that an
operator has no meaning for are truth values or null, with an operator of the program that is not
one for comparing identity; a division by zero is a division; and an overflow quotes an operation on
integers whose exact result 64 bits do not hold, or the negation of the least integer. -/
theorem truthful_of_eval (program : Program) (env : Env) (hplain : env.IsPlain) (fault : Fault)
    (h : (program.eval env).1 = some (.error fault)) :
    fault.Truthful env (· ∈ Stmt.readsAll program.statements)
      (· ∈ Stmt.operatorsAll program.statements) := by
  obtain ⟨v, hv, hunwrapped⟩ := Option.map_eq_some_iff.mp h
  have hreports : Reports env (· ∈ Stmt.readsAll program.statements)
      (· ∈ Stmt.operatorsAll program.statements) (Stmt.evalAll none program.statements env).1 :=
    Stmt.evalAll_reports program.statements (fun _ hname => hname) (fun _ hop => hop) hplain .none
  have hunnested : v.Unnested :=
    (Stmt.keeps_evalAll_none program.statements env).unnested hplain v hv
  refine hreports fault (hv.trans (congrArg some ?_))
  -- the fault was not inside a returned value, where only plain values are
  cases v with
  | returned inner =>
    have hinner : inner = .error fault := hunwrapped
    rw [hinner] at hunnested
    exact hunnested.elim
  | integer _ | boolean _ | null | error _ => exact hunwrapped

/-- The program `let b = if (a) { let x = a; x }; if (b) { x + y }`. -/
def lateFault : Program :=
  ⟨[.binding ⟨.kwLet, "let"⟩ ⟨⟨.ident, "b"⟩, "b"⟩
      (some (.conditional ⟨.kwIf, "if"⟩ (.reference ⟨⟨.ident, "a"⟩, "a"⟩)
        ⟨⟨.lbrace, "\x7b"⟩,
          [.binding ⟨.kwLet, "let"⟩ ⟨⟨.ident, "x"⟩, "x"⟩ (some (.reference ⟨⟨.ident, "a"⟩, "a"⟩)),
            .expression ⟨.ident, "x"⟩ (.reference ⟨⟨.ident, "x"⟩, "x"⟩)]⟩ none)),
    .expression ⟨.kwIf, "if"⟩ (.conditional ⟨.kwIf, "if"⟩ (.reference ⟨⟨.ident, "b"⟩, "b"⟩)
      ⟨⟨.lbrace, "\x7b"⟩,
        [.expression ⟨.ident, "x"⟩ (.binary ⟨.plus, "+"⟩ (.reference ⟨⟨.ident, "x"⟩, "x"⟩) .add
          (.reference ⟨⟨.ident, "y"⟩, "y"⟩))]⟩ none)]⟩

/-- With `a` bound to the least integer, on an outer level, the program reads `x` and `y`. It binds
the first before it reads it, and the second is the one that is not found. With `y` bound to the
same integer the sum of both is too large. -/
theorem truthful_of_eval_late :
    let outer := (Env.empty.set "a" (.integer ⟨-9223372036854775808, by decide, by decide⟩)).enter
    let inner := outer.set "y" (.integer ⟨-9223372036854775808, by decide, by decide⟩)
    (outer.IsPlain ∧ (lateFault.eval outer).1 = some (.error (.unbound "y")) ∧
      "y" ∈ Stmt.readsAll lateFault.statements ∧ outer.get? "y" = none) ∧
    (inner.IsPlain ∧ (lateFault.eval inner).1 =
        some (.error (.overflow "-9223372036854775808 + -9223372036854775808")) ∧
      ((∃ (op : BinaryOp) (a b : Integer) (n : Int), op.IsArithmetic ∧
        op ∈ Stmt.operatorsAll lateFault.statements ∧
        op.ideal? a.val b.val = some n ∧ ¬Integer.Holds n ∧
        "-9223372036854775808 + -9223372036854775808" =
          a.text ++ " " ++ op.symbol ++ " " ++ b.text) ∨
        "-9223372036854775808 + -9223372036854775808" = "-(-9223372036854775808)")) := by
  intro outer inner
  have houter : outer.IsPlain := (Env.isPlain_empty.set (v := .integer _) trivial).enter
  have hinner : inner.IsPlain := houter.set (v := .integer _) trivial
  have hunbound : (lateFault.eval outer).1 = some (.error (.unbound "y")) := by decide +kernel
  have hover : (lateFault.eval inner).1 =
      some (.error (.overflow "-9223372036854775808 + -9223372036854775808")) := by
    decide +kernel
  exact ⟨⟨houter, hunbound, truthful_of_eval lateFault outer houter _ hunbound⟩,
    hinner, hover, truthful_of_eval lateFault inner hinner _ hover⟩

end Program

end Treewalk
