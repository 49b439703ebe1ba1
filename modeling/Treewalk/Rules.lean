import Treewalk.Tree
import Treewalk.Diagnostic

/-!
# Rules of expressions

Which kinds of token open an expression, and which join one to what follows. The rules are two
tables over kinds of token. The standard tables are the language; registering a rule replaces the
entry of one kind and leaves every strength as it was.
-/

namespace Treewalk

/-- An operand of a single token. -/
inductive Atom where
  /-- The name the token spells. -/
  | name
  /-- The integer the token spells. -/
  | integer
  /-- True or false, as the token's kind says. -/
  | boolean
  /-- True, whatever the token is. -/
  | truth
  /-- No operand, and nothing to say about it. -/
  | refuse
deriving DecidableEq

/-- Reads a token as an operand: the operand, if it is one, and what is wrong with it. -/
def Atom.read : Atom → Token → Option Expr × List Diagnostic
  | .name, t => (some (.reference (.ofToken t)), [])
  | .integer, t =>
    match Integer.ofText? t.literal with
    | some n => (some (.integer t n), [])
    | none => (none, [.invalidInteger t.literal])
  | .boolean, t => (some (.boolean t (t.kind = .kwTrue)), [])
  | .truth, t => (some (.boolean t true), [])
  | .refuse, _ => (none, [])

/-- How an expression opens. -/
inductive Opening where
  /-- With an operand of one token. -/
  | atom (atom : Atom)
  /-- With an operator in front of its operand. -/
  | unary (op : UnaryOp)
  /-- With a parenthesis around an expression. -/
  | group
  /-- With a choice between blocks. -/
  | conditional
deriving DecidableEq

/-- How a token joins the expression before it to what follows. -/
inductive Joining where
  /-- As an operator between two operands. -/
  | binary (op : BinaryOp)
  /-- It adds nothing: the expression stays as it is. -/
  | keep
  /-- As a negation that stands behind its operand. -/
  | complement
  /-- As the first token of a second operand, by which the first is multiplied. -/
  | juxtapose
  /-- It makes no expression, and there is nothing to say about it. -/
  | refuse
deriving DecidableEq

/-- What each kind of token does in an expression. -/
structure Rules where
  opening : Token.Kind → Option Opening
  joining : Token.Kind → Option Joining

namespace Rules

/-- The kinds that open an expression of the language. -/
def standardOpening : Token.Kind → Option Opening
  | .ident => some (.atom .name)
  | .int => some (.atom .integer)
  | .kwTrue | .kwFalse => some (.atom .boolean)
  | .bang => some (.unary .not)
  | .minus => some (.unary .negate)
  | .lparen => some .group
  | .kwIf => some .conditional
  | _ => none

/-- The kinds that join expressions of the language: those that spell an operator. -/
def standardJoining (kind : Token.Kind) : Option Joining :=
  (BinaryOp.ofKind? kind).map .binary

/-- The rules of the language. -/
def standard : Rules := ⟨standardOpening, standardJoining⟩

/-- Lets tokens of one kind open an expression as `opening` says. -/
def registerOpening (kind : Token.Kind) (opening : Opening) (rules : Rules) : Rules :=
  { rules with opening := fun k => if k = kind then some opening else rules.opening k }

/-- Lets tokens of one kind join expressions as `joining` says. -/
def registerJoining (kind : Token.Kind) (joining : Joining) (rules : Rules) : Rules :=
  { rules with joining := fun k => if k = kind then some joining else rules.joining k }

@[simp] theorem opening_registerOpening (kind k : Token.Kind) (o : Opening) (rules : Rules) :
    (rules.registerOpening kind o).opening k = if k = kind then some o else rules.opening k := rfl

@[simp] theorem joining_registerOpening (kind : Token.Kind) (o : Opening) (rules : Rules) :
    (rules.registerOpening kind o).joining = rules.joining := rfl

@[simp] theorem joining_registerJoining (kind k : Token.Kind) (j : Joining) (rules : Rules) :
    (rules.registerJoining kind j).joining k = if k = kind then some j else rules.joining k := rfl

@[simp] theorem opening_registerJoining (kind : Token.Kind) (j : Joining) (rules : Rules) :
    (rules.registerJoining kind j).opening = rules.opening := rfl

end Rules

end Treewalk
