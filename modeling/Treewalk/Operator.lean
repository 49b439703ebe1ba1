import Treewalk.Token

/-!
# Operators and how strongly they bind

The operators of the language, the kinds of token that spell them, and the strength with which
a kind of token holds on to the expression before it. Kinds that continue no expression have the
least strength.
-/

namespace Treewalk

/-- An operator in front of its operand. -/
inductive UnaryOp where
  | not
  | negate
deriving DecidableEq

/-- An operator between its operands. -/
inductive BinaryOp where
  | add
  | sub
  | mul
  | div
  | less
  | greater
  | equal
  | notEqual
deriving DecidableEq

namespace UnaryOp

/-- How the operator is written. -/
def symbol : UnaryOp → String
  | .not => "!"
  | .negate => "-"

/-- The operator a kind of token spells in front of an operand. -/
def ofKind? : Token.Kind → Option UnaryOp
  | .bang => some .not
  | .minus => some .negate
  | _ => none

end UnaryOp

namespace BinaryOp

/-- How the operator is written. -/
def symbol : BinaryOp → String
  | .add => "+"
  | .sub => "-"
  | .mul => "*"
  | .div => "/"
  | .less => "<"
  | .greater => ">"
  | .equal => "=="
  | .notEqual => "!="

/-- The operator a kind of token spells between two operands. -/
def ofKind? : Token.Kind → Option BinaryOp
  | .plus => some .add
  | .minus => some .sub
  | .asterisk => some .mul
  | .slash => some .div
  | .lt => some .less
  | .gt => some .greater
  | .eq => some .equal
  | .notEq => some .notEqual
  | _ => none

end BinaryOp

/-- How strongly an operator binds, weakest first. -/
inductive Strength where
  | lowest
  | equality
  | order
  | sum
  | product
  | unary
  | call
deriving DecidableEq

namespace Strength

/-- The place of a strength, counted from the weakest. -/
def rank : Strength → Nat
  | .lowest => 0
  | .equality => 1
  | .order => 2
  | .sum => 3
  | .product => 4
  | .unary => 5
  | .call => 6

instance : LT Strength := ⟨fun a b => a.rank < b.rank⟩

instance : LE Strength := ⟨fun a b => a.rank ≤ b.rank⟩

instance (a b : Strength) : Decidable (a < b) := inferInstanceAs (Decidable (a.rank < b.rank))

instance (a b : Strength) : Decidable (a ≤ b) := inferInstanceAs (Decidable (a.rank ≤ b.rank))

instance : Ord Strength := ⟨fun a b => compare a.rank b.rank⟩

/-- Nothing is weaker than the weakest. -/
theorem not_lt_lowest (a : Strength) : ¬a < .lowest := Nat.not_lt_zero _

end Strength

/-- How strongly a token of this kind binds to the expression before it. -/
def Token.Kind.strength : Token.Kind → Strength
  | .eq | .notEq => .equality
  | .lt | .gt => .order
  | .plus | .minus => .sum
  | .asterisk | .slash => .product
  | .lparen => .call
  | _ => .lowest

end Treewalk
