import Treewalk.Diagnostic

/-!
# Readings

A `Reading` is the outcome of reading from some position of a supply: the value read, how many
tokens the position moved, and the diagnostics found on the way, in order. The position itself is
the list of tokens from the current one on, so after a reading `r` from `ahead` it is
`ahead.drop r.moves`.
-/

namespace Treewalk

/-- The outcome of reading from a position. -/
structure Reading (α : Type) where
  value : α
  /-- How far the position moved. -/
  moves : Nat
  diagnostics : List Diagnostic
deriving DecidableEq

namespace Reading

variable {α β : Type}

/-- A value read on the spot. -/
def done (value : α) : Reading α := ⟨value, 0, []⟩

/-- Nothing read, for a reason. -/
def fail (diagnostic : Diagnostic) : Reading (Option α) := ⟨none, 0, [diagnostic]⟩

/-- The same reading seen from `moves` tokens earlier. -/
def shift (moves : Nat) (r : Reading α) : Reading α := { r with moves := moves + r.moves }

/-- The same reading with another value. -/
def map (f : α → β) (r : Reading α) : Reading β := { r with value := f r.value }

/-- Reads on from where a reading came to rest, unless it read nothing. -/
def andThen (r : Reading (Option α)) (next : α → Nat → Reading (Option β)) : Reading (Option β) :=
  match r.value with
  | none => ⟨none, r.moves, r.diagnostics⟩
  | some a =>
    let s := next a r.moves
    ⟨s.value, r.moves + s.moves, r.diagnostics ++ s.diagnostics⟩

/-- What was read, if anything was, in front of all that is read from the next token on. -/
def followedBy (first : Reading (Option α)) (rest : Nat → Reading (List α)) : Reading (List α) :=
  let others := rest first.moves
  ⟨first.value.toList ++ others.value, first.moves + 1 + others.moves,
    first.diagnostics ++ others.diagnostics⟩

@[simp] theorem value_shift (n : Nat) (r : Reading α) : (r.shift n).value = r.value := rfl

@[simp] theorem moves_shift (n : Nat) (r : Reading α) : (r.shift n).moves = n + r.moves := rfl

@[simp] theorem diagnostics_shift (n : Nat) (r : Reading α) :
    (r.shift n).diagnostics = r.diagnostics := rfl

@[simp] theorem value_map (f : α → β) (r : Reading α) : (r.map f).value = f r.value := rfl

@[simp] theorem moves_map (f : α → β) (r : Reading α) : (r.map f).moves = r.moves := rfl

@[simp] theorem diagnostics_map (f : α → β) (r : Reading α) :
    (r.map f).diagnostics = r.diagnostics := rfl

@[simp] theorem value_followedBy (first : Reading (Option α)) (rest : Nat → Reading (List α)) :
    (first.followedBy rest).value = first.value.toList ++ (rest first.moves).value := rfl

@[simp] theorem moves_followedBy (first : Reading (Option α)) (rest : Nat → Reading (List α)) :
    (first.followedBy rest).moves = first.moves + 1 + (rest first.moves).moves := rfl

@[simp] theorem diagnostics_followedBy (first : Reading (Option α))
    (rest : Nat → Reading (List α)) :
    (first.followedBy rest).diagnostics =
      first.diagnostics ++ (rest first.moves).diagnostics := rfl

/-- A reading that read nothing ends there. -/
theorem andThen_of_none {r : Reading (Option α)} (h : r.value = none)
    (next : α → Nat → Reading (Option β)) :
    r.andThen next = ⟨none, r.moves, r.diagnostics⟩ := by
  unfold andThen
  rw [h]

/-- A reading that read `a` is followed by the next one. -/
theorem andThen_of_some {r : Reading (Option α)} {a : α} (h : r.value = some a)
    (next : α → Nat → Reading (Option β)) :
    r.andThen next = ⟨(next a r.moves).value, r.moves + (next a r.moves).moves,
      r.diagnostics ++ (next a r.moves).diagnostics⟩ := by
  unfold andThen
  rw [h]

end Reading

/-- Moves onto the next token if it has the kind expected; otherwise stays and says so. `next` is
what follows the current token. -/
def expect (kind : Token.Kind) (next : List Token) : Reading (Option Token) :=
  if (Token.next next).kind = kind then ⟨some (Token.next next), 1, []⟩
  else .fail (.unexpected kind (Token.next next).kind)

/-- The expected token is moved onto. -/
theorem expect_cons {kind : Token.Kind} {t : Token} (h : t.kind = kind) (rest : List Token) :
    expect kind (t :: rest) = ⟨some t, 1, []⟩ := by
  rw [expect, Token.next_cons, if_pos h]

/-- Any other token is left where it is, with one diagnostic. -/
theorem expect_of_ne {kind : Token.Kind} {next : List Token} (h : (Token.next next).kind ≠ kind) :
    expect kind next = .fail (.unexpected kind (Token.next next).kind) := by
  rw [expect, if_neg h]

/-- How many tokens an optional semicolon takes. `next` is what follows the current token. -/
def separator (next : List Token) : Nat :=
  if (Token.next next).kind = .semicolon then 1 else 0

end Treewalk
