import Treewalk.Integer
import Treewalk.Operator

/-!
# Runtime faults

What can go wrong while a program runs. A fault is a cause; its wording is `message`. Operands
are mentioned by their category, except where the numbers themselves are at fault.
-/

namespace Treewalk

/-- The categories of values. -/
inductive Category where
  | integer
  | boolean
  | null
  | returned
  | error
deriving DecidableEq

/-- The name of a category. -/
def Category.name : Category → String
  | .integer => "INTEGER"
  | .boolean => "BOOLEAN"
  | .null => "NULL"
  | .returned => "RETURN_VALUE"
  | .error => "ERROR"

/-- A cause for a program to stop. -/
inductive Fault where
  /-- The operator has no meaning for its operand. -/
  | unknownUnary (op : UnaryOp) (operand : Category)
  /-- The operator has no meaning for two operands of this category. -/
  | unknownBinary (left : Category) (op : BinaryOp) (right : Category)
  /-- The operands are of different categories. -/
  | mismatch (left : Category) (op : BinaryOp) (right : Category)
  /-- No level of bindings has the name. -/
  | unbound (name : String)
  /-- A division by zero. -/
  | divisionByZero (dividend : Integer)
  /-- An exact result that 64 bits do not hold. -/
  | overflow (expression : String)
deriving DecidableEq

/-- The wording of a fault. -/
def Fault.message : Fault → String
  | .unknownUnary op operand => "unknown operator: " ++ op.symbol ++ operand.name
  | .unknownBinary left op right =>
    "unknown operator: " ++ left.name ++ " " ++ op.symbol ++ " " ++ right.name
  | .mismatch left op right =>
    "type mismatch: " ++ left.name ++ " " ++ op.symbol ++ " " ++ right.name
  | .unbound name => "identifier not found: " ++ name
  | .divisionByZero dividend => "division by zero: " ++ dividend.text ++ " / 0"
  | .overflow expression => "integer overflow: " ++ expression

end Treewalk
