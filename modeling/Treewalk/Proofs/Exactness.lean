import Treewalk.Eval

/-!
# Arithmetic is exact or a fault

An arithmetic expression has a value over all integers, in which nothing is too large and only a
zero divisor has no quotient (`ideal?`). The evaluator works with 64 bits. It yields the exact value
where 64 bits hold the value of every part, and otherwise the fault of the first operation that
fails, counted in the order of evaluation: left before right, and operands before the operator
(`inOrder`). Nothing behind that operation matters, whether it would fail or not.
-/

namespace Treewalk

/-! ## Exact values -/

/-- The integers that 64 signed bits hold. -/
def Integer.Holds (n : Int) : Prop := -9223372036854775808 ≤ n ∧ n ≤ 9223372036854775807
deriving Decidable

/-- The exact result of an operator between integers. There is none for a zero divisor, and the
operators that compare have none at all. -/
def BinaryOp.ideal? : BinaryOp → Int → Int → Option Int
  | .add, a, b => some (a + b)
  | .sub, a, b => some (a - b)
  | .mul, a, b => some (a * b)
  | .div, a, b => if b = 0 then none else some (a.tdiv b)
  | .less, _, _ | .greater, _, _ | .equal, _, _ | .notEqual, _, _ => none

/-- The operators that calculate. -/
def BinaryOp.IsArithmetic (op : BinaryOp) : Prop := op = .add ∨ op = .sub ∨ op = .mul ∨ op = .div

namespace Expr

/-- The expression is made up of integers, of names that are bound to integers, of negations and of
the operators that calculate. -/
def IsArithmetic (env : Env) : Expr → Prop
  | .reference name => ∃ n, env.get? name.value = some (.integer n)
  | .integer _ _ => True
  | .unary _ op operand => op = .negate ∧ operand.IsArithmetic env
  | .binary _ left op right => op.IsArithmetic ∧ left.IsArithmetic env ∧ right.IsArithmetic env
  | .boolean _ _ | .conditional _ _ _ _ => False

/-- The value of an arithmetic expression over all integers. -/
def ideal? (env : Env) : Expr → Option Int
  | .reference name =>
    match env.get? name.value with
    | some (.integer n) => some n.val
    | _ => none
  | .integer _ n => some n.val
  | .unary _ .negate operand => (operand.ideal? env).map fun n => -n
  | .binary _ left op right =>
    (left.ideal? env).bind fun a => (right.ideal? env).bind fun b => op.ideal? a b
  | _ => none

/-- The parts of an expression in the order of their evaluation, itself last. -/
def inOrder : Expr → List Expr
  | .unary token op operand => operand.inOrder ++ [.unary token op operand]
  | .binary token left op right => left.inOrder ++ right.inOrder ++ [.binary token left op right]
  | e => [e]

/-- The expression has an exact value, and 64 bits hold it. -/
def Fits (env : Env) (e : Expr) : Prop := ∃ n, e.ideal? env = some n ∧ Integer.Holds n

instance (env : Env) (e : Expr) : Decidable (e.Fits env) :=
  decidable_of_iff ((e.ideal? env).any (fun n => decide (Integer.Holds n)) = true) <| by
    simp only [Option.any_eq_true, decide_eq_true_eq, Fits]

/-- The operation has operands that fit, but does not fit itself. The fault is the division by zero
that it is, with the dividend, and otherwise an overflow that quotes it. -/
inductive Fails (env : Env) : Expr → Fault → Prop
  | negation {token : Token} {operand : Expr} {v : Integer} :
      operand.ideal? env = some v.val → ¬Integer.Holds (-v.val) →
      Fails env (.unary token .negate operand) (.overflow ("-(" ++ v.text ++ ")"))
  | zeroDivisor {token : Token} {left right : Expr} {a : Integer} :
      left.ideal? env = some a.val → right.ideal? env = some 0 →
      Fails env (.binary token left .div right) (.divisionByZero a)
  | overflow {token : Token} {left right : Expr} {op : BinaryOp} {a b : Integer} {n : Int} :
      left.ideal? env = some a.val → right.ideal? env = some b.val →
      op.ideal? a.val b.val = some n → ¬Integer.Holds n →
      Fails env (.binary token left op right)
        (.overflow (a.text ++ " " ++ op.symbol ++ " " ++ b.text))

/-- Of the parts in order, the first that does not fit is an operation that fails with `fault`. -/
def FirstFails (env : Env) (parts : List Expr) (fault : Fault) : Prop :=
  ∃ before part after, parts = before ++ part :: after ∧ (∀ p ∈ before, p.Fits env) ∧
    part.Fails env fault

end Expr

/-! ## Operators -/

theorem Integer.holds_val (a : Integer) : Holds a.val := ⟨a.least_le, a.le_greatest⟩

/-- A result that 64 bits hold is the value. -/
theorem Value.exactly_of_holds {n : Int} (h : Integer.Holds n) (expression : String) :
    ∃ a : Integer, a.val = n ∧ exactly n expression = .integer a := by
  have hof : Integer.ofInt? n = some ⟨n, h.1, h.2⟩ := Integer.ofInt?_eq_some_iff.mpr rfl
  refine ⟨⟨n, h.1, h.2⟩, rfl, ?_⟩
  rw [exactly, hof]

/-- Any other is an overflow. -/
theorem Value.exactly_of_not_holds {n : Int} (h : ¬Integer.Holds n) (expression : String) :
    exactly n expression = .error (.overflow expression) := by
  have hof : Integer.ofInt? n = none := Integer.ofInt?_eq_none_iff.mpr h
  rw [exactly, hof]

namespace BinaryOp

variable {op : BinaryOp} {a b : Integer}

/-- An operator that has an exact result is applied by calculating it. -/
theorem apply_of_ideal? {n : Int} (h : op.ideal? a.val b.val = some n) :
    op.apply (.integer a) (.integer b) = .exactly n (op.quote a b) := by
  cases op with
  | add | sub | mul => exact congrArg (Value.exactly · _) (Option.some.inj h)
  | div =>
    by_cases hzero : b.val = 0
    · simp only [ideal?, if_pos hzero] at h
      cases h
    · simp only [ideal?, if_neg hzero] at h
      simp only [apply, applyIntegers, if_neg hzero, Option.some.inj h]
  | less | greater | equal | notEqual => cases h

/-- Only a zero divisor leaves an operator that calculates without a result. -/
theorem eq_div_of_ideal?_eq_none (hop : op.IsArithmetic) (h : op.ideal? a.val b.val = none) :
    op = .div ∧ b.val = 0 := by
  rcases hop with rfl | rfl | rfl | rfl
  · cases h
  · cases h
  · cases h
  · by_cases hzero : b.val = 0
    · exact ⟨rfl, hzero⟩
    · simp only [ideal?, if_neg hzero] at h
      cases h

theorem apply_div_zero (h : b.val = 0) :
    BinaryOp.div.apply (.integer a) (.integer b) = .error (.divisionByZero a) := by
  simp only [apply, applyIntegers, if_pos h]

end BinaryOp

/-! ## The first failure -/

namespace Expr

variable {env : Env} {parts : List Expr} {fault : Fault}

/-- What fails does not fit. -/
theorem Fails.not_fits {e : Expr} (h : e.Fails env fault) : ¬e.Fits env := by
  rintro ⟨m, hm, hholds⟩
  cases h with
  | negation hv hover =>
    rw [ideal?, hv] at hm
    have hneg : -_ = m := Option.some.inj hm
    exact hover (hneg ▸ hholds)
  | zeroDivisor ha hb =>
    rw [ideal?, ha, hb] at hm
    cases hm
  | overflow ha hb hn hover =>
    rw [ideal?, ha, hb] at hm
    have hresult := Option.some.inj (hn.symm.trans hm)
    exact hover (hresult ▸ hholds)

theorem FirstFails.append (h : FirstFails env parts fault) (more : List Expr) :
    FirstFails env (parts ++ more) fault := by
  obtain ⟨before, part, after, rfl, hbefore, hpart⟩ := h
  exact ⟨before, part, after ++ more, by simp, hbefore, hpart⟩

theorem FirstFails.prepend (h : FirstFails env parts fault) {first : List Expr}
    (hfirst : ∀ p ∈ first, p.Fits env) : FirstFails env (first ++ parts) fault := by
  obtain ⟨before, part, after, rfl, hbefore, hpart⟩ := h
  refine ⟨first ++ before, part, after, by simp, ?_, hpart⟩
  exact List.forall_mem_append.mpr ⟨hfirst, hbefore⟩

theorem FirstFails.not_forall_fits (h : FirstFails env parts fault) :
    ¬∀ part ∈ parts, part.Fits env := by
  obtain ⟨before, part, after, rfl, -, hfails⟩ := h
  intro hall
  exact hfails.not_fits (hall part (List.mem_append_right _ List.mem_cons_self))

theorem firstFails_singleton {e : Expr} (h : e.Fails env fault) : FirstFails env [e] fault :=
  ⟨[], e, [], rfl, nofun, h⟩

/-- How the evaluation of an arithmetic expression ends. The environment stays as it is. -/
inductive Calculated (env : Env) (e : Expr) : Prop
  | value {n : Integer} : (∀ part ∈ e.inOrder, part.Fits env) → e.ideal? env = some n.val →
      e.eval env = (.integer n, env) → Calculated env e
  | fault {fault : Fault} : FirstFails env e.inOrder fault → e.eval env = (.error fault, env) →
      Calculated env e

/-- Where all operands fit, it depends on the exact result alone how an operation ends. -/
theorem calculated_of_operands {e : Expr} {operands : List Expr} {n : Int} {quoted : String}
    (horder : e.inOrder = operands ++ [e]) (hfit : ∀ part ∈ operands, part.Fits env)
    (hexact : e.ideal? env = some n) (heval : e.eval env = (.exactly n quoted, env))
    (hfails : ¬Integer.Holds n → e.Fails env (.overflow quoted)) : e.Calculated env := by
  by_cases hholds : Integer.Holds n
  · obtain ⟨m, rfl, hvalue⟩ := Value.exactly_of_holds hholds quoted
    refine .value ?_ hexact (by rw [heval, hvalue])
    rw [horder]
    exact List.forall_mem_append.mpr
      ⟨hfit, List.forall_mem_singleton.mpr ⟨m.val, hexact, hholds⟩⟩
  · refine .fault ?_ (by rw [heval, Value.exactly_of_not_holds hholds])
    rw [horder]
    exact (firstFails_singleton (hfails hholds)).prepend hfit

theorem calculated_unary {operand : Expr} (token : Token) (h : operand.Calculated env) :
    (Expr.unary token .negate operand).Calculated env := by
  cases h with
  | @value v hfit hv heval =>
    have hexact : (Expr.unary token .negate operand).ideal? env = some (-v.val) := by
      rw [ideal?, hv]
      rfl
    have hwhole : (Expr.unary token .negate operand).eval env =
        (.exactly (-v.val) ("-(" ++ v.text ++ ")"), env) := by
      rw [eval_unary, heval]
      rfl
    exact calculated_of_operands rfl hfit hexact hwhole (.negation hv)
  | fault hfirst heval =>
    refine .fault (hfirst.append _) ?_
    rw [eval_unary, heval]
    rfl

theorem calculated_binary {left right : Expr} {op : BinaryOp} (token : Token)
    (hop : op.IsArithmetic) (hl : left.Calculated env) (hr : right.Calculated env) :
    (Expr.binary token left op right).Calculated env := by
  cases hl with
  | @fault fault hfirst hleft =>
    have hwhole : FirstFails env (Expr.binary token left op right).inOrder fault := by
      rw [inOrder, List.append_assoc]
      exact hfirst.append _
    refine .fault hwhole ?_
    rw [eval_binary, hleft]
    rfl
  | @value a hfitl ha hleft =>
    have hwhole : (Expr.binary token left op right).eval env =
        if (right.eval env).1.isCarrier then right.eval env
        else (op.apply (.integer a) (right.eval env).1, (right.eval env).2) := by
      rw [eval_binary, hleft]
      rfl
    cases hr with
    | fault hfirst hright =>
      refine .fault ((hfirst.prepend hfitl).append _) ?_
      rw [hwhole, hright]
      rfl
    | @value b hfitr hb hright =>
      have hfit := List.forall_mem_append.mpr ⟨hfitl, hfitr⟩
      have hexact : (Expr.binary token left op right).ideal? env = op.ideal? a.val b.val := by
        rw [ideal?, ha, hb]
        rfl
      have happly : (Expr.binary token left op right).eval env =
          (op.apply (.integer a) (.integer b), env) := by
        rw [hwhole, hright]
        rfl
      cases hresult : op.ideal? a.val b.val with
      | none =>
        obtain ⟨rfl, hzero⟩ := BinaryOp.eq_div_of_ideal?_eq_none hop hresult
        rw [hzero] at hb
        refine .fault ((firstFails_singleton (.zeroDivisor ha hb)).prepend hfit) ?_
        rw [happly, BinaryOp.apply_div_zero hzero]
      | some n =>
        rw [BinaryOp.apply_of_ideal? hresult] at happly
        rw [hresult] at hexact
        exact calculated_of_operands rfl hfit hexact happly (.overflow ha hb hresult)

/-- **An arithmetic expression is calculated exactly, or ends in its first failure.** -/
theorem calculated : ∀ {e : Expr}, e.IsArithmetic env → e.Calculated env
  | .reference name, ⟨n, hn⟩ => by
    have hexact : (Expr.reference name).ideal? env = some n.val := by rw [ideal?, hn]
    refine .value (List.forall_mem_singleton.mpr ⟨n.val, hexact, n.holds_val⟩) hexact ?_
    rw [eval, hn, Option.getD_some]
  | .integer _ n, _ => .value (List.forall_mem_singleton.mpr ⟨n.val, rfl, n.holds_val⟩) rfl rfl
  | .unary token _ _, ⟨rfl, hoperand⟩ => calculated_unary token (calculated hoperand)
  | .binary token _ _ _, ⟨hop, hl, hr⟩ =>
    calculated_binary token hop (calculated hl) (calculated hr)

/-- **Arithmetic is exact or a fault.** An arithmetic expression yields an integer exactly if every
part of it has a value over all integers that 64 bits hold, and then it is the exact value of the
whole. Otherwise it yields the fault of the first operation that fails. -/
theorem eval_arithmetic (env : Env) (e : Expr) (h : e.IsArithmetic env) :
    (∀ n : Integer, (e.eval env).1 = .integer n ↔
      (∀ part ∈ e.inOrder, part.Fits env) ∧ e.ideal? env = some n.val) ∧
    ((¬∀ part ∈ e.inOrder, part.Fits env) →
      ∃ fault, (e.eval env).1 = .error fault ∧
        ∃ before part after, e.inOrder = before ++ part :: after ∧ (∀ p ∈ before, p.Fits env) ∧
          part.Fails env fault) := by
  cases calculated h with
  | @value m hfit hm heval =>
    refine ⟨fun n => ?_, fun hnot => absurd hfit hnot⟩
    rw [heval, hm]
    constructor
    · intro hvalue
      obtain rfl : m = n := Value.integer.inj hvalue
      exact ⟨hfit, rfl⟩
    · rintro ⟨-, hval⟩
      exact congrArg Value.integer (Integer.ext (Option.some.inj hval))
  | @fault fault hfirst heval =>
    rw [heval]
    exact ⟨fun n => ⟨nofun, fun hall => absurd hall.1 hfirst.not_forall_fits⟩,
      fun _ => ⟨fault, rfl, hfirst⟩⟩

/-- The expression `(a + 5) / 2`. -/
def truncatedQuotient : Expr :=
  .binary ⟨.slash, "/"⟩
    (.binary ⟨.plus, "+"⟩ (.reference ⟨⟨.ident, "a"⟩, "a"⟩) .add
      (.integer ⟨.int, "5"⟩ ⟨5, by decide, by decide⟩))
    .div (.integer ⟨.int, "2"⟩ ⟨2, by decide, by decide⟩)

/-- The expression `1 / 0`. -/
def zeroDivision : Expr :=
  .binary ⟨.slash, "/"⟩ (.integer ⟨.int, "1"⟩ ⟨1, by decide, by decide⟩) .div
    (.integer ⟨.int, "0"⟩ .zero)

/-- The expression `-a - 1 / 0`. -/
def twoFailures : Expr :=
  .binary ⟨.minus, "-"⟩ (.unary ⟨.minus, "-"⟩ .negate (.reference ⟨⟨.ident, "a"⟩, "a"⟩)) .sub
    zeroDivision

/-- Let `a` be bound to the least integer, on an outer level. Then `(a + 5) / 2` is cut toward zero,
and of the two failures of `-a - 1 / 0` the first is reported. -/
theorem eval_arithmetic_least :
    let env := (Env.empty.set "a" (.integer ⟨-9223372036854775808, by decide, by decide⟩)).enter
    (truncatedQuotient.IsArithmetic env ∧ (truncatedQuotient.eval env).1 =
      .integer ⟨-4611686018427387901, by decide, by decide⟩) ∧
    (twoFailures.IsArithmetic env ∧
      zeroDivision.Fails env (.divisionByZero ⟨1, by decide, by decide⟩) ∧
      ∃ fault, (twoFailures.eval env).1 = .error fault ∧ FirstFails env twoFailures.inOrder fault ∧
        fault = .overflow "-(-9223372036854775808)") := by
  intro env
  have ha : ∃ n, env.get? "a" = some (.integer n) := ⟨_, rfl⟩
  have hquotient : truncatedQuotient.IsArithmetic env :=
    ⟨.inr (.inr (.inr rfl)), ⟨.inl rfl, ha, trivial⟩, trivial⟩
  have hfailures : twoFailures.IsArithmetic env :=
    ⟨.inr (.inl rfl), ⟨rfl, ha⟩, .inr (.inr (.inr rfl)), trivial, trivial⟩
  have hfit : ∀ part ∈ truncatedQuotient.inOrder, part.Fits env := by decide
  have hnot : ¬∀ part ∈ twoFailures.inOrder, part.Fits env := by decide
  obtain ⟨fault, heval, hfirst⟩ := (eval_arithmetic env twoFailures hfailures).2 hnot
  refine ⟨⟨hquotient, ((eval_arithmetic env truncatedQuotient hquotient).1 _).mpr ⟨hfit, rfl⟩⟩,
    hfailures, .zeroDivisor rfl rfl, fault, heval, hfirst, ?_⟩
  have hconcrete : (twoFailures.eval env).1 = .error (.overflow "-(-9223372036854775808)") := by
    decide +kernel
  exact Value.error.inj (heval.symm.trans hconcrete)

end Expr

end Treewalk
