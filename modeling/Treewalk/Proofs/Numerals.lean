import Mathlib.Data.Nat.Digits.Defs
import Treewalk.Proofs.Quotation

/-!
# Numerals are exact

A numeral is any run of decimal digits, however long and with any zeros in front. What it denotes is
said by the places of its digits, from the last one up. Reading goes over them from the first one on
and keeps a number of any size, which is held against the range of an integer only when it is
complete. So a text that is one numeral is refused where the number is out of range, and for no
other reason: neither its length nor the number so far counts.
-/

namespace Treewalk

/-! ## Places of digits -/

namespace Integer

/-- The number that decimal digits denote: the last digit counts once, and every other one ten times
as much as it would one place further on. -/
def decimal (cs : List Char) : Nat :=
  Nat.ofDigits 10 (cs.map fun c => c.toNat - '0'.toNat).reverse

/-- The first digit counts by the number of digits behind it. -/
theorem decimal_cons (c : Char) (cs : List Char) :
    decimal (c :: cs) = 10 ^ cs.length * (c.toNat - '0'.toNat) + decimal cs := by
  rw [decimal, List.map_cons, Nat.ofDigits_reverse_cons, List.length_map, Nat.add_comm]
  rfl

/-- **Reading digits from the first one on adds up their places.** -/
theorem ofDigitChars_eq_decimal (cs : List Char) : Nat.ofDigitChars 10 cs 0 = decimal cs := by
  induction cs with
  | nil => rfl
  | cons c cs ih =>
    -- every digit that follows moves the first one up a place
    calc Nat.ofDigitChars 10 (c :: cs) 0
      _ = Nat.ofDigitChars 10 cs (c.toNat - '0'.toNat) := by
        rw [Nat.ofDigitChars_cons, Nat.mul_zero, Nat.zero_add]
      _ = 10 ^ cs.length * (c.toNat - '0'.toNat) + Nat.ofDigitChars 10 cs 0 :=
        Nat.ofDigitChars_eq_ofDigitChars_zero
      _ = decimal (c :: cs) := by rw [ih, decimal_cons]

variable {d : String}

/-- **A numeral is read as the number it denotes**, if 64 bits hold that. -/
theorem ofText?_of_spelled (h : Token.Kind.int.Spelled d.toList) :
    ofText? d = ofInt? (decimal d.toList) := by
  have hdigits : ∀ c ∈ d.toList, c.isDigit = true := fun c hc => Token.isDigit_iff.mpr (h.2 c hc)
  have hread := ofText?_of_isDigit hdigits
  rw [String.ofList_toList] at hread
  rw [hread, ofDigits?_of_isDigit h.1 hdigits, Option.bind_some, ofDigitChars_eq_decimal]

/-- A numeral within range is read, as exactly the number it denotes. -/
theorem exists_ofText?_of_le (h : Token.Kind.int.Spelled d.toList)
    (hle : decimal d.toList ≤ 2 ^ 63 - 1) :
    ∃ n : Integer, n.val = decimal d.toList ∧ ofText? d = some n := by
  have hgreatest : (decimal d.toList : Int) ≤ 9223372036854775807 := by omega
  refine ⟨⟨decimal d.toList, by omega, hgreatest⟩, rfl, ?_⟩
  rw [ofText?_of_spelled h, ofInt?_eq_some_iff]

/-- A numeral out of range is not. -/
theorem ofText?_eq_none_of_lt (h : Token.Kind.int.Spelled d.toList)
    (hlt : 2 ^ 63 - 1 < decimal d.toList) : ofText? d = none := by
  rw [ofText?_of_spelled h, ofInt?_eq_none_iff]
  omega

end Integer

/-! ## Texts of one operand -/

namespace Grammar

open Rules Reading

variable {t : Token} {atom : Atom} {e : Option Expr} {found : List Diagnostic}

/-- An operand that nothing follows is the whole expression. -/
theorem readExpr_atom (floor : Strength) (hopen : standard.opening t.kind = some (.atom atom))
    (hread : atom.read t = (e, found)) : standard.readExpr floor [t] = ⟨e, 0, found⟩ := by
  rw [readExpr, readOperand, hopen]
  simp only [hread]
  cases e with
  | none => rfl
  | some e =>
    have hmore : standard.readMore floor e [t] = .done (some e) :=
      readMore_of_stops (stops_of_ofKind?_eq_none rfl) e t
    rw [andThen_of_some rfl, List.drop_zero, hmore]
    exact congrArg (Reading.mk (some e) 0) (List.append_nil found)

/-- A program of a single operand is that operand, with what is wrong with it. -/
theorem readProgram_atom (hopen : standard.opening t.kind = some (.atom atom))
    (hread : atom.read t = (e, found)) :
    standard.readProgram [t] = ⟨(e.map (Stmt.expression t)).toList, 1, found⟩ := by
  -- what opens an expression neither ends a program nor starts another statement
  have hne : ∀ kind : Token.Kind, standard.opening kind = none → t.kind ≠ kind := by
    rintro kind hnone rfl
    rw [hnone] at hopen
    cases hopen
  have hstmt : standard.readStmt t [] = ⟨e.map (Stmt.expression t), 0, found⟩ := by
    rw [readStmt, if_neg (hne .kwLet rfl), if_neg (hne .kwReturn rfl),
      readExpr_atom .lowest hopen hread]
    cases e with
    | none => rfl
    | some e => exact congrArg (Reading.mk (some (Stmt.expression t e)) 0) (List.append_nil found)
  have hend : standard.readProgram [] = .done [] := by rw [readProgram]
  rw [readProgram, if_neg (hne .eof rfl), hstmt, followedBy, List.drop_nil, hend]
  simp only [done, List.append_nil, Nat.zero_add, Nat.add_zero]

end Grammar

/-- A numeral is scanned as one token. -/
theorem Token.ofSource_of_spelled {d : String} (h : Kind.int.Spelled d.toList) :
    ofSource d = [⟨.int, d⟩] := by
  have hscan : scan (d.toList ++ []) = ⟨.int, d⟩ :: scan [] :=
    scan_spelled (t := ⟨.int, d⟩) h nofun
  rwa [List.append_nil, scan_nil] at hscan

/-- **A text that is one numeral** is the integer it is read as, or is refused for it. -/
theorem Program.ofSource_of_spelled {d : String} (h : Token.Kind.int.Spelled d.toList) :
    Program.ofSource d =
      match Integer.ofText? d with
      | some n => .ok ⟨[.expression ⟨.int, d⟩ (.integer ⟨.int, d⟩ n)]⟩
      | none => .error [.invalidInteger d] := by
  have hopen : Rules.standard.opening Token.Kind.int = some (.atom .integer) := rfl
  rw [Program.ofSource_eq, Token.ofSource_of_spelled h]
  cases hread : Integer.ofText? d with
  | some n =>
    have hatom : Atom.integer.read ⟨.int, d⟩ = (some (.integer ⟨.int, d⟩ n), []) := by
      simp only [Atom.read, hread]
    rw [Grammar.readProgram_atom hopen hatom]
    rfl
  | none =>
    have hatom : Atom.integer.read ⟨.int, d⟩ = (none, [.invalidInteger d]) := by
      simp only [Atom.read, hread]
    rw [Grammar.readProgram_atom hopen hatom]
    rfl

/-- **Numerals of any length are exact.** A text of nothing but digits, at least one of them and with
zeros in front or not, is accepted if the number it denotes is at most the greatest integer. Then it
is the one numeral, and it evaluates to exactly that number in every environment, which it leaves as
it was. Any other is rejected, for the numeral as it is written and for nothing else. -/
theorem numeral_exact (d : String) (hne : d ≠ "") (hdigits : ∀ c ∈ d.toList, '0' ≤ c ∧ c ≤ '9') :
    (Integer.decimal d.toList ≤ 2 ^ 63 - 1 →
      ∃ n : Integer, n.val = Integer.decimal d.toList ∧
        Program.ofSource d = .ok ⟨[.expression ⟨.int, d⟩ (.integer ⟨.int, d⟩ n)]⟩ ∧
        ∀ env, evaluate d env = .ok (some (.integer n), env)) ∧
      (2 ^ 63 - 1 < Integer.decimal d.toList →
        Program.ofSource d = .error [.invalidInteger d]) := by
  have hspelled : Token.Kind.int.Spelled d.toList :=
    ⟨fun hnil => hne (String.toList_eq_nil_iff.mp hnil), hdigits⟩
  have hsource := Program.ofSource_of_spelled hspelled
  refine ⟨fun hle => ?_, fun hlt => ?_⟩
  · obtain ⟨n, hval, hread⟩ := Integer.exists_ofText?_of_le hspelled hle
    rw [hread] at hsource
    refine ⟨n, hval, hsource, fun env => ?_⟩
    rw [evaluate_of_ofSource hsource, Program.eval_expression]
    rfl
  · rwa [Integer.ofText?_eq_none_of_lt hspelled hlt] at hsource

/-- The greatest integer behind more zeros than an integer has digits is read as itself, and one more
is refused with all of its zeros. -/
theorem numeral_exact_behind_zeros :
    let greatest := "0000000000000000000000009223372036854775807"
    let beyond := "0000000000000000000000009223372036854775808"
    (∃ n : Integer, n.val = 9223372036854775807 ∧
      Program.ofSource greatest =
        .ok ⟨[.expression ⟨.int, greatest⟩ (.integer ⟨.int, greatest⟩ n)]⟩ ∧
      ∀ env, evaluate greatest env = .ok (some (.integer n), env)) ∧
    Program.ofSource beyond = .error [.invalidInteger beyond] := by
  intro greatest beyond
  have hgreatest : Integer.decimal greatest.toList = 9223372036854775807 := by decide +kernel
  have hbeyond : Integer.decimal beyond.toList = 9223372036854775808 := by decide +kernel
  have hdigits : ∀ text : String, text.toList.all Char.isDigit = true →
      ∀ c ∈ text.toList, '0' ≤ c ∧ c ≤ '9' :=
    fun _ hall c hc => Token.isDigit_iff.mp (List.all_eq_true.mp hall c hc)
  obtain ⟨haccepted, -⟩ := numeral_exact greatest (by decide) (hdigits _ (by decide +kernel))
  obtain ⟨-, hrejected⟩ := numeral_exact beyond (by decide) (hdigits _ (by decide +kernel))
  obtain ⟨n, hval, hread⟩ := haccepted (by rw [hgreatest]; decide)
  exact ⟨⟨n, by rw [hval, hgreatest]; rfl, hread⟩, hrejected (by rw [hbeyond]; decide)⟩

end Treewalk
