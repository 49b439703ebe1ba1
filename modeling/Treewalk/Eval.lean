import Treewalk.Tree
import Treewalk.Env
import Treewalk.Value.Operate

/-!
# Evaluation

The value of a tree in an environment, and the environment afterwards. Operands are evaluated from
left to right; the first carrier among them is the value of the whole. A list of statements stops
at its first carrier and otherwise yields what its last statement yields, which is nothing after a
binding. A block hands a returned value on as it is; a program takes the value out of it.
-/

namespace Treewalk

mutual

/-- Evaluates an expression. -/
def Expr.eval : Expr → Env → Value × Env
  | .reference name, env => ((env.get? name.value).getD (.error (.unbound name.value)), env)
  | .integer _ value, env => (.integer value, env)
  | .boolean _ value, env => (.boolean value, env)
  | .unary _ op operand, env =>
    let (value, env) := operand.eval env
    if value.isCarrier then (value, env) else (op.apply value, env)
  | .binary _ left op right, env =>
    let (l, env) := left.eval env
    if l.isCarrier then (l, env)
    else
      let (r, env) := right.eval env
      if r.isCarrier then (r, env) else (op.apply l r, env)
  | .conditional _ condition consequence alternative, env =>
    let (value, env) := condition.eval env
    if value.isCarrier then (value, env)
    else
      let (result, env) :=
        if value.isTruthy then consequence.eval env else Block.evalIfAny alternative env
      (result.getD .null, env)

/-- Evaluates a block. -/
def Block.eval : Block → Env → Option Value × Env
  | ⟨_, statements⟩, env => Stmt.evalAll none statements env

/-- Evaluates a block that may be missing, in which case there is no value. -/
def Block.evalIfAny : Option Block → Env → Option Value × Env
  | none, env => (none, env)
  | some body, env => body.eval env

/-- Evaluates a statement. -/
def Stmt.eval : Stmt → Env → Option Value × Env
  | .binding _ name value, env =>
    let (value, env) := Expr.evalIfAny value env
    if value.isCarrier then (some value, env) else (none, env.set name.value value)
  | .result _ value, env =>
    let (value, env) := Expr.evalIfAny value env
    if value.isCarrier then (some value, env) else (some (.returned value), env)
  | .expression _ value, env =>
    let (value, env) := value.eval env
    (some value, env)
  | .block body, env => body.eval env

/-- Evaluates an expression that may be missing, in which case the value is null. -/
def Expr.evalIfAny : Option Expr → Env → Value × Env
  | none, env => (.null, env)
  | some value, env => value.eval env

/-- Evaluates statements in order; `last` is what the one before them yielded. -/
def Stmt.evalAll (last : Option Value) : List Stmt → Env → Option Value × Env
  | [], env => (last, env)
  | statement :: rest, env =>
    let (outcome, env) := statement.eval env
    if outcome.any Value.isCarrier then (outcome, env) else Stmt.evalAll outcome rest env

end

/-! ## One equation for each form

The pairs are spelled out by their components, so that what is known of a part can be put in. -/

section Equations

variable (env : Env) (token : Token)

theorem Expr.eval_unary (op : UnaryOp) (operand : Expr) :
    (Expr.unary token op operand).eval env =
      if (operand.eval env).1.isCarrier then operand.eval env
      else (op.apply (operand.eval env).1, (operand.eval env).2) := rfl

theorem Expr.eval_binary (left : Expr) (op : BinaryOp) (right : Expr) :
    (Expr.binary token left op right).eval env =
      if (left.eval env).1.isCarrier then left.eval env
      else if (right.eval (left.eval env).2).1.isCarrier then right.eval (left.eval env).2
      else (op.apply (left.eval env).1 (right.eval (left.eval env).2).1,
        (right.eval (left.eval env).2).2) := rfl

theorem Expr.eval_conditional (condition : Expr) (consequence : Block)
    (alternative : Option Block) :
    (Expr.conditional token condition consequence alternative).eval env =
      if (condition.eval env).1.isCarrier then condition.eval env
      else if (condition.eval env).1.isTruthy then
        ((consequence.eval (condition.eval env).2).1.getD .null,
          (consequence.eval (condition.eval env).2).2)
      else
        ((Block.evalIfAny alternative (condition.eval env).2).1.getD .null,
          (Block.evalIfAny alternative (condition.eval env).2).2) := by
  rw [Expr.eval]
  obtain ⟨value, after⟩ := condition.eval env
  cases h : value.isTruthy <;> simp only [h] <;> rfl

theorem Stmt.eval_binding (name : Name) (value : Option Expr) :
    (Stmt.binding token name value).eval env =
      if (Expr.evalIfAny value env).1.isCarrier then
        (some (Expr.evalIfAny value env).1, (Expr.evalIfAny value env).2)
      else (none, (Expr.evalIfAny value env).2.set name.value (Expr.evalIfAny value env).1) := rfl

theorem Stmt.eval_result (value : Option Expr) :
    (Stmt.result token value).eval env =
      if (Expr.evalIfAny value env).1.isCarrier then
        (some (Expr.evalIfAny value env).1, (Expr.evalIfAny value env).2)
      else (some (.returned (Expr.evalIfAny value env).1), (Expr.evalIfAny value env).2) := rfl

theorem Stmt.evalAll_cons (last : Option Value) (statement : Stmt) (rest : List Stmt) :
    Stmt.evalAll last (statement :: rest) env =
      if (statement.eval env).1.any Value.isCarrier then statement.eval env
      else Stmt.evalAll (statement.eval env).1 rest (statement.eval env).2 := rfl

end Equations

/-- Evaluates a program. -/
def Program.eval (program : Program) (env : Env) : Option Value × Env :=
  let (result, env) := Stmt.evalAll none program.statements env
  (result.map Value.unwrapped, env)

/-- Evaluates every statement on its own, without stopping at a carrier. -/
def Stmt.evalEach : List Stmt → Env → List (Option Value) × Env
  | [], env => ([], env)
  | statement :: rest, env =>
    let (outcome, env) := statement.eval env
    let (outcomes, env) := Stmt.evalEach rest env
    (outcome :: outcomes, env)

end Treewalk
