import Treewalk.Proofs.Carriers
import Treewalk.Tree.Render

/-!
# Evaluation reads no tokens

Every node of a tree keeps a token, and a name or a literal keeps the text it came from beside what
the text stands for. Rendering reads the one, evaluation the other. To say so, the tokens of a tree
are erased at every depth, and names, numbers, truth values and operators are kept: trees that are
the same without their tokens are evaluated alike, down to the wording of a fault.
-/

namespace Treewalk

/-! ## Trees without tokens -/

/-- A name without its token. -/
def Name.erased (name : Name) : Name := ⟨.eof, name.value⟩

mutual

/-- An expression with an empty token at every node. -/
def Expr.erased : Expr → Expr
  | .reference name => .reference name.erased
  | .integer _ value => .integer .eof value
  | .boolean _ value => .boolean .eof value
  | .unary _ op operand => .unary .eof op operand.erased
  | .binary _ left op right => .binary .eof left.erased op right.erased
  | .conditional _ condition consequence alternative =>
    .conditional .eof condition.erased consequence.erased (Block.erasedIfAny alternative)

/-- A block with an empty token at every node. -/
def Block.erased : Block → Block
  | ⟨_, statements⟩ => ⟨.eof, Stmt.erasedAll statements⟩

/-- A block that may be missing, without its tokens. -/
def Block.erasedIfAny : Option Block → Option Block
  | none => none
  | some body => some body.erased

/-- A statement with an empty token at every node. -/
def Stmt.erased : Stmt → Stmt
  | .binding _ name value => .binding .eof name.erased (Expr.erasedIfAny value)
  | .result _ value => .result .eof (Expr.erasedIfAny value)
  | .expression _ value => .expression .eof value.erased
  | .block body => .block body.erased

/-- An expression that may be missing, without its tokens. -/
def Expr.erasedIfAny : Option Expr → Option Expr
  | none => none
  | some value => some value.erased

/-- Statements without their tokens. -/
def Stmt.erasedAll : List Stmt → List Stmt
  | [] => []
  | statement :: rest => statement.erased :: Stmt.erasedAll rest

end

/-- A tree without its tokens. -/
def Node.erased : Node → Node
  | .program p => .program ⟨Stmt.erasedAll p.statements⟩
  | .block b => .block b.erased
  | .statement s => .statement s.erased
  | .expression e => .expression e.erased

/-! ## Evaluation -/

mutual

theorem Expr.eval_erased : ∀ (e : Expr) (env : Env), e.erased.eval env = e.eval env
  | .reference _, _ | .integer _ _, _ | .boolean _ _, _ => rfl
  | .unary token op operand, env => by
    rw [Expr.erased, Expr.eval_unary, Expr.eval_unary, operand.eval_erased]
  | .binary token left op right, env => by
    rw [Expr.erased, Expr.eval_binary, Expr.eval_binary, left.eval_erased, right.eval_erased]
  | .conditional token condition consequence alternative, env => by
    rw [Expr.erased, Expr.eval_conditional, Expr.eval_conditional, condition.eval_erased,
      consequence.eval_erased, Block.evalIfAny_erased alternative]

theorem Block.eval_erased : ∀ (b : Block) (env : Env), b.erased.eval env = b.eval env
  | ⟨_, statements⟩, env => Stmt.evalAll_erased statements none env

theorem Block.evalIfAny_erased : ∀ (b : Option Block) (env : Env),
    Block.evalIfAny (Block.erasedIfAny b) env = Block.evalIfAny b env
  | none, _ => rfl
  | some b, env => b.eval_erased env

theorem Stmt.eval_erased : ∀ (s : Stmt) (env : Env), s.erased.eval env = s.eval env
  | .binding token name value, env => by
    -- the name that is bound is the one without its token
    rw [Stmt.erased, Stmt.eval_binding, Stmt.eval_binding, Expr.evalIfAny_erased value, Name.erased]
  | .result token value, env => by
    rw [Stmt.erased, Stmt.eval_result, Stmt.eval_result, Expr.evalIfAny_erased value]
  | .expression _ value, env => congrArg (fun run => (some run.1, run.2)) (value.eval_erased env)
  | .block body, env => body.eval_erased env

theorem Expr.evalIfAny_erased : ∀ (e : Option Expr) (env : Env),
    Expr.evalIfAny (Expr.erasedIfAny e) env = Expr.evalIfAny e env
  | none, _ => rfl
  | some e, env => e.eval_erased env

theorem Stmt.evalAll_erased : ∀ (statements : List Stmt) (last : Option Value) (env : Env),
    Stmt.evalAll last (Stmt.erasedAll statements) env = Stmt.evalAll last statements env
  | [], _, _ => rfl
  | statement :: rest, last, env => by
    rw [Stmt.erasedAll, Stmt.evalAll_cons, Stmt.evalAll_cons, statement.eval_erased,
      Stmt.evalAll_erased rest]

end

namespace Node

/-- **A tree is evaluated as it is without its tokens.** -/
theorem eval_erased (node : Node) (env : Env) : node.erased.eval env = node.eval env := by
  cases node with
  | program p =>
    exact congrArg (fun run => (run.1.map Value.unwrapped, run.2))
      (Stmt.evalAll_erased p.statements none env)
  | block b => exact b.eval_erased env
  | statement s => exact s.eval_erased env
  | expression e => exact congrArg (fun run => (some run.1, run.2)) (e.eval_erased env)

/-- **Evaluation never looks at tokens.** Two trees of any kind that are the same once the tokens of
both are erased, at every depth, yield the same in every environment, a fault with all that it says
included, and leave the same environment behind. -/
theorem eval_eq_of_erased_eq (a b : Node) (h : a.erased = b.erased) (env : Env) :
    a.eval env = b.eval env := by
  rw [← a.eval_erased, h, b.eval_erased]

/-- The program `let x = 40; x + 9223372036854775800`, if its forty is written so. -/
def overflowing (forty : Token) : Program :=
  ⟨[.binding ⟨.kwLet, "let"⟩ ⟨⟨.ident, "x"⟩, "x"⟩
      (some (.integer forty ⟨40, by decide, by decide⟩)),
    .expression ⟨.ident, "x"⟩ (.binary ⟨.plus, "+"⟩ (.reference ⟨⟨.ident, "x"⟩, "x"⟩) .add
      (.integer ⟨.int, "9223372036854775800"⟩ ⟨9223372036854775800, by decide, by decide⟩))]⟩

/-- Written as a name, the number is rendered as that and evaluated as forty all the same, down to
what the overflow quotes. -/
theorem eval_eq_of_erased_eq_name :
    let numeral := overflowing ⟨.int, "40"⟩
    let name := overflowing ⟨.ident, "forty"⟩
    ((Node.program name).erased = (Node.program numeral).erased ∧
      name.eval .empty = numeral.eval .empty) ∧
    name.render ≠ numeral.render ∧
    (name.eval .empty).1 = some (.error (.overflow "40 + 9223372036854775800")) := by
  intro numeral name
  have herased : (Node.program name).erased = (Node.program numeral).erased := rfl
  have hsame : name.eval .empty = numeral.eval .empty :=
    eval_eq_of_erased_eq (.program name) (.program numeral) herased .empty
  exact ⟨⟨herased, hsame⟩, by decide, by decide +kernel⟩

end Node

end Treewalk
