import Treewalk.Integer
import Treewalk.Operator

/-!
# Program trees

Expressions, statements and blocks. Every node keeps the token it came from. A tree built by
hand may pair a node with any token at all: rendering reads the tokens of literals, evaluation
reads none.
-/

namespace Treewalk

/-- A name, as it is bound or referred to. -/
structure Name where
  token : Token
  value : String
deriving DecidableEq

/-- The name a token spells. -/
def Name.ofToken (token : Token) : Name := ⟨token, token.literal⟩

mutual

/-- What has a value. -/
inductive Expr where
  /-- A reference to a binding. -/
  | reference (name : Name)
  /-- An integer literal. -/
  | integer (token : Token) (value : Integer)
  /-- A truth value. -/
  | boolean (token : Token) (value : Bool)
  /-- An operator applied to one operand. -/
  | unary (token : Token) (op : UnaryOp) (operand : Expr)
  /-- An operator applied to two operands. -/
  | binary (token : Token) (left : Expr) (op : BinaryOp) (right : Expr)
  /-- A choice between two blocks, the second of which may be missing. -/
  | conditional (token : Token) (condition : Expr) (consequence : Block)
      (alternative : Option Block)

/-- A step of a program. -/
inductive Stmt where
  /-- Binds a name. The value is missing where it could not be read. -/
  | binding (token : Token) (name : Name) (value : Option Expr)
  /-- Ends the program with a value, or with none. -/
  | result (token : Token) (value : Option Expr)
  /-- An expression for its own sake; the token is its first one. -/
  | expression (token : Token) (value : Expr)
  /-- Statements in braces. -/
  | block (body : Block)

/-- Statements in braces, in the order of evaluation. -/
structure Block where
  token : Token
  statements : List Stmt

end

/-- A program: the statements of one source text. -/
structure Program where
  statements : List Stmt

/-! ## The text a node starts with -/

/-- The text of the token an expression came from. -/
def Expr.literal : Expr → String
  | .reference name => name.token.literal
  | .integer token _ => token.literal
  | .boolean token _ => token.literal
  | .unary token _ _ => token.literal
  | .binary token _ _ _ => token.literal
  | .conditional token _ _ _ => token.literal

/-- The text of the token a statement came from. -/
def Stmt.literal : Stmt → String
  | .binding token _ _ => token.literal
  | .result token _ => token.literal
  | .expression token _ => token.literal
  | .block body => body.token.literal

/-- The text of a program's first token, empty for an empty program. -/
def Program.literal (program : Program) : String :=
  (program.statements.head?.map Stmt.literal).getD ""

end Treewalk
