import Treewalk.Fault

/-!
# Values

Values are integers, truth values and null. Two more forms carry control: a returned value ends
the program with the value inside, and an error ends it with a fault. These two are the carriers:
whatever meets one passes it on.
-/

namespace Treewalk

/-- What evaluation yields. -/
inductive Value where
  | integer (value : Integer)
  | boolean (value : Bool)
  | null
  | returned (value : Value)
  | error (fault : Fault)
deriving DecidableEq

namespace Value

/-- The category a value belongs to. -/
def category : Value → Category
  | .integer _ => .integer
  | .boolean _ => .boolean
  | .null => .null
  | .returned _ => .returned
  | .error _ => .error

/-- A value as text. A returned value reads as the value inside. -/
def text : Value → String
  | .integer n => n.text
  | .boolean true => "true"
  | .boolean false => "false"
  | .null => "null"
  | .returned value => value.text
  | .error fault => "ERROR: " ++ fault.message

/-- Is the value an error? -/
def isError : Value → Bool
  | .error _ => true
  | _ => false

/-- Is the value a carrier? -/
def isCarrier : Value → Bool
  | .returned _ | .error _ => true
  | _ => false

/-- Does the value count as true in a condition? False, null and zero do not. -/
def isTruthy : Value → Bool
  | .boolean b => b
  | .null => false
  | .integer n => n.val ≠ 0
  | .returned _ | .error _ => true

/-- Are two values identical? Truth values are by being equal, and null is to itself. -/
def isIdentical : Value → Value → Bool
  | .boolean a, .boolean b => a = b
  | .null, .null => true
  | _, _ => false

/-- The value inside a returned value; any other value itself. -/
def unwrapped : Value → Value
  | .returned value => value
  | value => value

end Value

end Treewalk
