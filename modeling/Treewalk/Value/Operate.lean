import Treewalk.Value

/-!
# Applying operators

What each operator does to the values of its operands. Arithmetic is exact: where 64 bits do not
hold the result the value is an overflow, quoted with both numbers, and a division by zero comes
before that. Quotients are cut toward zero.
-/

namespace Treewalk

/-- The exact result as a value, or an overflow that quotes the expression. -/
def Value.exactly (result : Int) (expression : String) : Value :=
  match Integer.ofInt? result with
  | some n => .integer n
  | none => .error (.overflow expression)

namespace UnaryOp

/-- Applies an operator to one value. -/
def apply : UnaryOp → Value → Value
  | .not, .boolean b => .boolean !b
  | .not, .null => .boolean true
  | .not, _ => .boolean false
  | .negate, .integer n => .exactly (-n.val) ("-(" ++ n.text ++ ")")
  | .negate, operand => .error (.unknownUnary .negate operand.category)

end UnaryOp

namespace BinaryOp

/-- An operator between two integers, as diagnostics quote it. -/
def quote (op : BinaryOp) (a b : Integer) : String := a.text ++ " " ++ op.symbol ++ " " ++ b.text

/-- Applies an operator to two integers. -/
def applyIntegers (op : BinaryOp) (a b : Integer) : Value :=
  match op with
  | .add => .exactly (a.val + b.val) (op.quote a b)
  | .sub => .exactly (a.val - b.val) (op.quote a b)
  | .mul => .exactly (a.val * b.val) (op.quote a b)
  | .div =>
    if b.val = 0 then .error (.divisionByZero a)
    else .exactly (a.val.tdiv b.val) (op.quote a b)
  | .less => .boolean (a.val < b.val)
  | .greater => .boolean (a.val > b.val)
  | .equal => .boolean (a.val = b.val)
  | .notEqual => .boolean (a.val ≠ b.val)

/-- Applies an operator to two values. Two integers are calculated with or compared; any two other
values can be compared for identity, and nothing else. -/
def apply (op : BinaryOp) : Value → Value → Value
  | .integer a, .integer b => op.applyIntegers a b
  | left, right =>
    match op with
    | .equal => .boolean (left.isIdentical right)
    | .notEqual => .boolean !(left.isIdentical right)
    | _ =>
      if left.category = right.category then
        .error (.unknownBinary left.category op right.category)
      else .error (.mismatch left.category op right.category)

end BinaryOp

end Treewalk
