/-!
# Integers of 64 bits

An `Integer` is an `Int` together with the proof that 64 signed bits hold it. Arithmetic is
done on exact `Int`s and brought back by `ofInt?`, so a result that does not fit is a `none`
and nothing ever wraps around.

The text of an integer is its decimal digits, after a minus sign where it is negative. Reading
accepts more than writing produces: one sign of either kind, and leading zeros.
-/

namespace Treewalk

/-- An integer that 64 signed bits hold. -/
structure Integer where
  /-- The number itself. -/
  val : Int
  least_le : -9223372036854775808 ≤ val
  le_greatest : val ≤ 9223372036854775807
deriving DecidableEq

namespace Integer

@[ext] theorem ext {a b : Integer} (h : a.val = b.val) : a = b := by
  cases a; cases b; cases h; rfl

/-- The integer equal to `n`, if 64 bits hold it. -/
def ofInt? (n : Int) : Option Integer :=
  if h : -9223372036854775808 ≤ n ∧ n ≤ 9223372036854775807 then some ⟨n, h.1, h.2⟩ else none

/-- An integer is made of exactly its own value. -/
theorem ofInt?_eq_some_iff {n : Int} {a : Integer} : ofInt? n = some a ↔ a.val = n := by
  unfold ofInt?
  split
  · rw [Option.some.injEq]
    exact ⟨fun h => h ▸ rfl, fun h => Integer.ext h.symm⟩
  · rename_i h
    refine ⟨nofun, fun e => absurd ?_ h⟩
    subst e
    exact ⟨a.least_le, a.le_greatest⟩

/-- Only a number out of range makes none. -/
theorem ofInt?_eq_none_iff {n : Int} :
    ofInt? n = none ↔ ¬(-9223372036854775808 ≤ n ∧ n ≤ 9223372036854775807) := by
  unfold ofInt?
  split <;> simp_all

@[simp] theorem ofInt?_val (a : Integer) : ofInt? a.val = some a :=
  ofInt?_eq_some_iff.mpr rfl

/-- Zero. -/
def zero : Integer := ⟨0, by decide, by decide⟩

/-! ## Text -/

/-- The decimal digits of a natural number. -/
def digits (n : Nat) : List Char := Nat.toDigits 10 n

/-- The number a run of decimal digits denotes; an empty run, or one with any other character,
denotes none. -/
def ofDigits? (cs : List Char) : Option Nat :=
  if cs ≠ [] ∧ cs.all Char.isDigit then some (Nat.ofDigitChars 10 cs 0) else none

/-- Decimal text, with a minus sign in front of a negative number. -/
def text (a : Integer) : String :=
  if a.val < 0 then String.ofList ('-' :: digits a.val.natAbs)
  else String.ofList (digits a.val.natAbs)

/-- Reads an optional sign and decimal digits; refuses what 64 bits do not hold. -/
def ofChars? : List Char → Option Integer
  | '-' :: cs => (ofDigits? cs).bind fun n => ofInt? (-n)
  | '+' :: cs => (ofDigits? cs).bind fun n => ofInt? n
  | cs => (ofDigits? cs).bind fun n => ofInt? n

/-- Reads decimal text. -/
def ofText? (s : String) : Option Integer := ofChars? s.toList

end Integer

end Treewalk
