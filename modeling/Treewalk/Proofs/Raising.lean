import Treewalk.Proofs.Plain

/-!
# Evaluation by raising

A second evaluator, in which control is not carried by values. A result and a fault are signals:
they are raised where they come up and caught at the program, and in between nothing looks at a
value to see whether it carries one. What has been bound by the time a signal is raised stays bound.

Where all bindings are plain the two evaluators agree, on the value of a program and on the
environment it leaves. The induction is over the tree: an evaluation that ends in a carrier is a run
that raises its signal, and any other is a run that ends in the same value (`outcome`).
-/

namespace Treewalk

/-- What ends a program early. -/
inductive Signal where
  | result (value : Value)
  | fault (fault : Fault)

/-- What a program yields that a signal has ended. -/
def Signal.value : Signal → Value
  | .result v => v
  | .fault f => .error f

/-- Computations that use the environment and may raise a signal. The environment outlives it. -/
abbrev Raising := ExceptT Signal (StateM Env)

/-- Raises the fault that the outcome of an operator is. -/
def Value.orRaise : Value → Raising Value
  | .error fault => throw (.fault fault)
  | value => pure value

mutual

/-- Runs an expression. -/
def Expr.run : Expr → Raising Value
  | .reference name => do
    match (← get).get? name.value with
    | some value => return value
    | none => throw (.fault (.unbound name.value))
  | .integer _ value => return .integer value
  | .boolean _ value => return .boolean value
  | .unary _ op operand => do
    let value ← operand.run
    (op.apply value).orRaise
  | .binary _ left op right => do
    let l ← left.run
    let r ← right.run
    (op.apply l r).orRaise
  | .conditional _ condition consequence alternative => do
    let value ← condition.run
    let result ← if value.isTruthy then consequence.run else Block.runIfAny alternative
    return result.getD .null

/-- Runs a block. -/
def Block.run : Block → Raising (Option Value)
  | ⟨_, statements⟩ => Stmt.runAll none statements

/-- Runs a block that may be missing, in which case there is no value. -/
def Block.runIfAny : Option Block → Raising (Option Value)
  | none => return none
  | some body => body.run

/-- Runs a statement. -/
def Stmt.run : Stmt → Raising (Option Value)
  | .binding _ name value => do
    let value ← Expr.runIfAny value
    modify fun env => env.set name.value value
    return none
  | .result _ value => do
    let value ← Expr.runIfAny value
    throw (.result value)
  | .expression _ value => do
    let value ← value.run
    return some value
  | .block body => body.run

/-- Runs an expression that may be missing, in which case the value is null. -/
def Expr.runIfAny : Option Expr → Raising Value
  | none => return .null
  | some value => value.run

/-- Runs statements in order; `last` is what the one before them yielded. -/
def Stmt.runAll (last : Option Value) : List Stmt → Raising (Option Value)
  | [] => return last
  | statement :: rest => do
    let outcome ← statement.run
    Stmt.runAll outcome rest

end

/-- Does a computation in an environment. -/
def Raising.execute {α : Type} (m : Raising α) (env : Env) : Except Signal α × Env :=
  (ExceptT.run m).run env

/-- Runs a program, and catches what it raises. -/
def Program.run (program : Program) (env : Env) : Option Value × Env :=
  match (Stmt.runAll none program.statements).execute env with
  | (.ok last, env) => (last, env)
  | (.error signal, env) => (some signal.value, env)

/-! ## Signals and carriers -/

/-- The signal that a carrier stands for. -/
def Value.signal? : Value → Option Signal
  | .returned value => some (.result value)
  | .error fault => some (.fault fault)
  | _ => none

/-- How a run ends where evaluation yields `yielded`: by raising what that carries, and otherwise
with a value. -/
def outcome {α : Type} (yielded : Option Value) (value : α) : Except Signal α :=
  match yielded.bind Value.signal? with
  | some signal => .error signal
  | none => .ok value

theorem outcome_of_carrier {yielded : Option Value} (h : yielded.any Value.isCarrier = true) :
    ∃ signal : Signal, yielded.map Value.unwrapped = some signal.value ∧
      ∀ {α : Type} (value : α), outcome yielded value = .error signal := by
  obtain ⟨v, rfl, hv⟩ := (Option.any_eq_true _ _).mp h
  cases v with
  | returned v => exact ⟨.result v, rfl, fun _ => rfl⟩
  | error f => exact ⟨.fault f, rfl, fun _ => rfl⟩
  | integer _ | boolean _ | null => cases hv

theorem outcome_of_not_carrier {α : Type} {yielded : Option Value} (value : α)
    (h : ¬ yielded.any Value.isCarrier = true) :
    yielded.map Value.unwrapped = yielded ∧ outcome yielded value = .ok value := by
  cases yielded with
  | none => exact ⟨rfl, rfl⟩
  | some v =>
    cases v with
    | integer _ | boolean _ | null => exact ⟨rfl, rfl⟩
    | returned _ | error _ => exact absurd rfl h

/-! ## Runs -/

namespace Raising

variable {α β : Type} {m : Raising α} {k : α → Raising β} {env after : Env}
variable {yielded : Option Value} {value : α}

theorem execute_bind (m : Raising α) (k : α → Raising β) (env : Env) :
    (m >>= k).execute env =
      match m.execute env with
      | (.ok a, after) => (k a).execute after
      | (.error signal, after) => (.error signal, after) := by
  have h : (m >>= k).execute env =
      match (ExceptT.run m).run env with
      | (a, after) => (ExceptT.bindCont k a).run after := rfl
  rw [h, execute]
  obtain ⟨a, after⟩ := (ExceptT.run m).run env
  cases a <;> rfl

/-- A signal ends a run, whatever was to come. -/
theorem execute_bind_of_carrier (h : m.execute env = (outcome yielded value, after))
    (hcarrier : yielded.any Value.isCarrier = true) (b : β) :
    (m >>= k).execute env = (outcome yielded b, after) := by
  obtain ⟨signal, -, hsignal⟩ := outcome_of_carrier hcarrier
  rw [execute_bind, h, hsignal, hsignal]

/-- Any other value goes into what comes next, in the environment as it is by then. -/
theorem execute_bind_of_not_carrier (h : m.execute env = (outcome yielded value, after))
    (hcarrier : ¬ yielded.any Value.isCarrier = true) :
    (m >>= k).execute env = (k value).execute after := by
  rw [execute_bind, h, (outcome_of_not_carrier _ hcarrier).2]

/-- What an operator yields is raised or handed on. -/
theorem execute_orRaise {v : Value} (env : Env) (h : ∀ w, v ≠ .returned w) :
    v.orRaise.execute env = (outcome (some v) v, env) := by
  cases v with
  | returned w => exact absurd rfl (h w)
  | integer _ | boolean _ | null | error _ => rfl

/-- Null stands in for a value that is missing, and for nothing else. -/
theorem execute_getD_null {m : Raising (Option Value)}
    (h : m.execute env = (outcome yielded yielded, after)) :
    (m >>= fun result => pure (result.getD .null)).execute env =
      (outcome (some (yielded.getD .null)) (yielded.getD .null), after) := by
  by_cases hcarrier : yielded.any Value.isCarrier = true
  · rw [execute_bind_of_carrier h hcarrier (yielded.getD .null)]
    obtain ⟨v, rfl, -⟩ := (Option.any_eq_true _ _).mp hcarrier
    rfl
  · rw [execute_bind_of_not_carrier h hcarrier]
    have hgetD : ¬ (some (yielded.getD .null)).any Value.isCarrier = true := by
      cases yielded with
      | none => exact nofun
      | some v => exact hcarrier
    rw [(outcome_of_not_carrier _ hgetD).2]
    rfl

end Raising

open Raising

mutual

/-- **An expression is run to what it evaluates to.** -/
theorem Expr.execute_run : ∀ (e : Expr) {env : Env}, env.IsPlain →
    e.run.execute env = (outcome (some (e.eval env).1) (e.eval env).1, (e.eval env).2)
  | .reference name, env, hplain => by
    have hrun : (Expr.reference name).run.execute env =
        (match env.get? name.value with
          | some v => pure v
          | none => throw (.fault (.unbound name.value)) : Raising Value).execute env := rfl
    rw [hrun, Expr.eval]
    cases hget : env.get? name.value with
    | none => rfl
    | some v =>
      -- the one place where the bindings matter: a carrier that is looked up would not be raised
      have hv : ¬ (some v).any Value.isCarrier = true :=
        Bool.eq_false_iff.mp (Value.isPlain_iff.mp (hplain.get? hget))
      rw [Option.getD_some, (outcome_of_not_carrier _ hv).2]
      rfl
  | .integer _ _, _, _ => rfl
  | .boolean _ _, _, _ => rfl
  | .unary token op operand, env, hplain => by
    have h := operand.execute_run hplain
    rw [Expr.run, Expr.eval_unary]
    split
    · rename_i hcarrier
      exact execute_bind_of_carrier h hcarrier _
    · rename_i hcarrier
      rw [execute_bind_of_not_carrier h hcarrier]
      exact execute_orRaise _ (op.apply_ne_returned _)
  | .binary token left op right, env, hplain => by
    have hleft := left.execute_run hplain
    -- the right operand runs in what the left one has left behind, where all is plain still
    have hright := right.execute_run ((left.keeps_eval env).writes.isPlain hplain)
    rw [Expr.run, Expr.eval_binary]
    split
    · rename_i hcarrier
      exact execute_bind_of_carrier hleft hcarrier _
    · rename_i hcarrier
      rw [execute_bind_of_not_carrier hleft hcarrier]
      split
      · rename_i hcarrier'
        exact execute_bind_of_carrier hright hcarrier' _
      · rename_i hcarrier'
        rw [execute_bind_of_not_carrier hright hcarrier']
        exact execute_orRaise _ (op.apply_ne_returned _ _)
  | .conditional token condition consequence alternative, env, hplain => by
    have hcond := condition.execute_run hplain
    have hafter := (condition.keeps_eval env).writes.isPlain hplain
    rw [Expr.run, Expr.eval_conditional]
    split
    · rename_i hcarrier
      exact execute_bind_of_carrier hcond hcarrier _
    · rename_i hcarrier
      rw [execute_bind_of_not_carrier hcond hcarrier]
      split
      · exact execute_getD_null (consequence.execute_run hafter)
      · exact execute_getD_null (Block.execute_runIfAny alternative hafter)

theorem Block.execute_run : ∀ (b : Block) {env : Env}, env.IsPlain →
    b.run.execute env = (outcome (b.eval env).1 (b.eval env).1, (b.eval env).2)
  | ⟨_, statements⟩, env, hplain => by
    rw [Block.run, Block.eval]
    exact Stmt.execute_runAll statements none nofun hplain

theorem Block.execute_runIfAny : ∀ (b : Option Block) {env : Env}, env.IsPlain →
    (Block.runIfAny b).execute env =
      (outcome (Block.evalIfAny b env).1 (Block.evalIfAny b env).1, (Block.evalIfAny b env).2)
  | none, _, _ => rfl
  | some b, _, hplain => b.execute_run hplain

theorem Stmt.execute_run : ∀ (s : Stmt) {env : Env}, env.IsPlain →
    s.run.execute env = (outcome (s.eval env).1 (s.eval env).1, (s.eval env).2)
  | .binding token name value, env, hplain => by
    have h := Expr.execute_runIfAny value hplain
    rw [Stmt.run, Stmt.eval_binding]
    split
    · rename_i hcarrier
      exact execute_bind_of_carrier h hcarrier _
    · rename_i hcarrier
      rw [execute_bind_of_not_carrier h hcarrier]
      rfl
  | .result token value, env, hplain => by
    have h := Expr.execute_runIfAny value hplain
    rw [Stmt.run, Stmt.eval_result]
    split
    · rename_i hcarrier
      exact execute_bind_of_carrier h hcarrier _
    · rename_i hcarrier
      rw [execute_bind_of_not_carrier h hcarrier]
      rfl
  | .expression _ value, env, hplain => by
    have h := value.execute_run hplain
    rw [Stmt.run, Stmt.eval]
    by_cases hcarrier : (some (value.eval env).1).any Value.isCarrier = true
    · exact execute_bind_of_carrier h hcarrier _
    · rw [execute_bind_of_not_carrier h hcarrier, (outcome_of_not_carrier _ hcarrier).2]
      rfl
  | .block body, _, hplain => body.execute_run hplain

theorem Expr.execute_runIfAny : ∀ (e : Option Expr) {env : Env}, env.IsPlain →
    (Expr.runIfAny e).execute env =
      (outcome (some (Expr.evalIfAny e env).1) (Expr.evalIfAny e env).1, (Expr.evalIfAny e env).2)
  | none, _, _ => rfl
  | some e, _, hplain => e.execute_run hplain

/-- Statements are run to what they evaluate to, unless a carrier has come before them. -/
theorem Stmt.execute_runAll : ∀ (statements : List Stmt) (last : Option Value) {env : Env},
    ¬ last.any Value.isCarrier = true → env.IsPlain →
    (Stmt.runAll last statements).execute env =
      (outcome (Stmt.evalAll last statements env).1 (Stmt.evalAll last statements env).1,
        (Stmt.evalAll last statements env).2)
  | [], last, env, hlast, _ => by
    rw [Stmt.evalAll, (outcome_of_not_carrier _ hlast).2]
    rfl
  | statement :: rest, last, env, hlast, hplain => by
    have hfirst := statement.execute_run hplain
    rw [Stmt.runAll, Stmt.evalAll_cons]
    split
    · rename_i hcarrier
      exact execute_bind_of_carrier hfirst hcarrier _
    · rename_i hcarrier
      rw [execute_bind_of_not_carrier hfirst hcarrier]
      exact Stmt.execute_runAll rest _ hcarrier ((statement.keeps_eval env).writes.isPlain hplain)

end

/-- **Carrying control in values is raising it.** Whatever the program, and whatever plain values
are bound on the levels around it, evaluation yields what a run yields and leaves the environment
that a run leaves. -/
theorem Program.eval_eq_run (program : Program) (env : Env) (hplain : env.IsPlain) :
    program.eval env = program.run env := by
  have hrun := Stmt.execute_runAll program.statements none nofun hplain
  rw [Program.eval, Program.run, hrun]
  obtain ⟨yielded, after⟩ := Stmt.evalAll none program.statements env
  by_cases hcarrier : yielded.any Value.isCarrier = true
  · obtain ⟨signal, hvalue, hsignal⟩ := outcome_of_carrier hcarrier
    rw [hsignal]
    exact congrArg (·, after) hvalue
  · obtain ⟨hvalue, hok⟩ := outcome_of_not_carrier yielded hcarrier
    rw [hok]
    exact congrArg (·, after) hvalue

/-- A result inside an operand inside a binding: `let b = -if (a) { let c = a; return c }; a`. -/
def resultInOperand : Program :=
  let a : Name := ⟨⟨.ident, "a"⟩, "a"⟩
  let c : Name := ⟨⟨.ident, "c"⟩, "c"⟩
  ⟨[.binding ⟨.kwLet, "let"⟩ ⟨⟨.ident, "b"⟩, "b"⟩
      (some (.unary ⟨.minus, "-"⟩ .negate (.conditional ⟨.kwIf, "if"⟩ (.reference a)
        ⟨⟨.lbrace, "\x7b"⟩, [.binding ⟨.kwLet, "let"⟩ c (some (.reference a)),
          .result ⟨.kwReturn, "return"⟩ (some (.reference c))]⟩ none))),
    .expression ⟨.ident, "a"⟩ (.reference a)]⟩

/-- It ends the program: it is not negated and not bound, and what was bound before it stays. -/
theorem Program.eval_resultInOperand :
    (Env.empty.set "a" (.boolean true)).enter.IsPlain ∧
    resultInOperand.eval (Env.empty.set "a" (.boolean true)).enter =
      resultInOperand.run (Env.empty.set "a" (.boolean true)).enter ∧
    (resultInOperand.run (Env.empty.set "a" (.boolean true)).enter).1 = some (.boolean true) ∧
    (resultInOperand.run (Env.empty.set "a" (.boolean true)).enter).2.innermost =
      [("c", .boolean true)] := by
  have hset : (Env.empty.set "a" (.boolean true)).IsPlain := Env.isPlain_empty.set trivial
  have hplain := hset.enter
  exact ⟨hplain, Program.eval_eq_run _ _ hplain, by decide +kernel, by decide +kernel⟩

end Treewalk
