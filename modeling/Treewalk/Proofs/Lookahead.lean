import Treewalk.Proofs.Assembly

/-!
# Readers look one token ahead

What a reader reads depends on the tokens up to the one behind the token it comes to rest on, and
on nothing further. This holds under all rules, and of failed readings as well as of others.

`LocalAt reach` says so of a reader at one position, where `reach` counts the tokens it may have
looked at from its resting place on: two, the current one and the one behind it. Each of the steps
that readings are put together from keeps this; a part that starts `m` tokens further on reaches `m`
tokens further (`LocalAt.drop`).
-/

namespace Treewalk

namespace Agree

variable {n : Nat} {xs ys : List Token}

theorem cons (h : Agree n xs ys) (t : Token) : Agree (n + 1) (t :: xs) (t :: ys) := by
  unfold Agree at h ⊢
  rw [List.take_succ_cons, List.take_succ_cons, h]

/-- Two supplies that part behind some tokens, and there have the same token next. -/
theorem append {rest rest' : List Token} (tokens : List Token) (h : rest'.head? = rest.head?) :
    Agree (tokens.length + 1) (tokens ++ rest) (tokens ++ rest') := by
  unfold Agree
  rw [List.take_length_add_append, List.take_length_add_append]
  cases rest with
  | nil => rw [List.head?_eq_none_iff.mp h]
  | cons t rest =>
    obtain ⟨others, rfl⟩ := List.head?_eq_some_iff.mp h
    rfl

end Agree

theorem Reading.map_some_injective {α : Type} {r s : Reading α} (h : r.map some = s.map some) :
    r = s := by
  obtain ⟨hvalue, hmoves, hdiagnostics⟩ := Reading.mk.inj h
  cases r
  cases s
  rw [Reading.mk.injEq]
  exact ⟨Option.some.inj hvalue, hmoves, hdiagnostics⟩

/-! ## Readers that look no further than they reach -/

/-- From where the reader comes to rest, it has looked at `reach` tokens at the most. -/
def LocalAt {α : Type} (reach : Nat) (read : List Token → Reading α) (xs : List Token) : Prop :=
  ∀ ys n, Agree n xs ys → (read xs).moves + reach ≤ n → read ys = read xs

namespace LocalAt

variable {α β : Type} {reach m : Nat} {xs : List Token}

theorem map {read : List Token → Reading α} (h : LocalAt reach read xs) (f : α → β) :
    LocalAt reach (fun ts => (read ts).map f) xs :=
  fun ys n hagree hn => congrArg (Reading.map f) (h ys n hagree hn)

theorem of_map_some {read : List Token → Reading α}
    (h : LocalAt reach (fun ts => (read ts).map some) xs) : LocalAt reach read xs :=
  fun ys n hagree hn => Reading.map_some_injective (h ys n hagree hn)

theorem shift {reach' : Nat} {read : List Token → Reading α} (h : LocalAt reach' read xs)
    (hle : reach' ≤ m + reach) : LocalAt reach (fun ts => (read ts).shift m) xs := by
  intro ys n hagree hn
  rw [Reading.moves_shift] at hn
  exact congrArg (Reading.shift m) (h ys n hagree (by omega))

/-- What is read further on, seen from here. -/
theorem drop {read : List Token → Reading α} (h : LocalAt reach read (xs.drop m)) :
    LocalAt (m + reach) (fun ts => read (ts.drop m)) xs := by
  intro ys n hagree hn
  have hmoves : (read (xs.drop m)).moves + (m + reach) ≤ n := hn
  exact h _ _ (hagree.drop m) (by omega)

/-- What is read from the token before on, seen from here. -/
theorem cons {read : List Token → Reading α} {t : Token} (h : LocalAt (reach + 1) read (t :: xs)) :
    LocalAt reach (fun ts => read (t :: ts)) xs := by
  intro ys n hagree hn
  have hmoves : (read (t :: xs)).moves + reach ≤ n := hn
  exact h _ _ (hagree.cons t) (by omega)

/-- Reading on is local where both parts are. -/
theorem andThen {first : List Token → Reading (Option α)}
    {next : α → Nat → List Token → Reading (Option β)} (hfirst : LocalAt reach first xs)
    (hnext : ∀ a, (first xs).value = some a →
      LocalAt ((first xs).moves + reach) (next a (first xs).moves) xs) :
    LocalAt reach (fun ts => (first ts).andThen fun a m => next a m ts) xs := by
  intro ys n hagree hn
  cases hvalue : (first xs).value with
  | none =>
    simp only [Reading.andThen_of_none hvalue] at hn ⊢
    rw [hfirst ys n hagree hn, Reading.andThen_of_none hvalue]
  | some a =>
    simp only [Reading.andThen_of_some hvalue] at hn ⊢
    rw [hfirst ys n hagree (by omega), Reading.andThen_of_some hvalue,
      hnext a hvalue ys n hagree (by omega)]

theorem followedBy {first : List Token → Reading (Option α)}
    {rest : List Token → Reading (List α)} (hfirst : LocalAt reach first xs)
    (hrest : LocalAt reach rest (xs.drop ((first xs).moves + 1))) :
    LocalAt reach (fun ts => (first ts).followedBy fun m => rest (ts.drop (m + 1))) xs := by
  intro ys n hagree hn
  rw [Reading.moves_followedBy] at hn
  simp only [Reading.followedBy]
  rw [hfirst ys n hagree (by omega), hrest _ _ (hagree.drop _) (by omega)]

/-- Whether there is a semicolon behind what was read is in reach. -/
theorem separator {read : List Token → Reading α} (h : LocalAt 2 read xs) (k : α → β) :
    LocalAt 2 (fun ts => ⟨k (read ts).value,
      (read ts).moves + separator (ts.drop ((read ts).moves + 1)), (read ts).diagnostics⟩) xs := by
  intro ys n hagree hn
  have hmoves :
      (read xs).moves + Treewalk.separator (xs.drop ((read xs).moves + 1)) + 2 ≤ n := hn
  have hnext := (hagree.drop ((read xs).moves + 1)).next_eq (by omega)
  simp only [h ys n hagree (by omega), Treewalk.separator, hnext]

end LocalAt

/-- **What is assembled looks one token ahead.** -/
theorem Assembled.localAt {rules : Rules} {gaps : Prop} {α : Type} {place : Place} {extent : Extent}
    {P : α → Prop} {read : List Token → Reading (Option α)} {ahead : List Token}
    (h : Assembled rules gaps place extent P read ahead) : LocalAt 2 read ahead := by
  induction h with
  | @onSight _ place _ _ read f ahead hread _ ih =>
    intro ys n hagree hn
    have hsight : place.sight ≤ n := by cases place <;> simp only [Place.sight] <;> omega
    have hahead : read ahead = f ahead := hread ahead rfl
    rw [hahead] at hn ⊢
    rw [hread ys (hagree.mono hsight), ih ys n hagree hn]
  | map _ _ ih => exact ih.map _
  | andThen _ _ _ ih ihk => exact ih.andThen fun a ha => (ihk a ha).drop
  | done | missed | unopened | operand | invalid | refuseOpening | refuseJoining | separate | close
  | leave => exact fun _ _ _ _ => rfl
  | accept _ _ ih => exact ih.drop.shift (Nat.le_refl 3)
  | enclose _ _ ih => exact ih.drop.shift (Nat.le_refl 4)
  | enter _ _ ih => exact ih.drop.shift (Nat.le_refl 3)
  | begin _ _ ih => exact ih
  | juxtapose _ _ ih => exact ih
  | @value _ _ _ _ f k t next _ _ _ ih =>
    have hvalue : LocalAt 2 (fun ts => (f (ts.drop 1)).shift 1) (t :: next) :=
      ih.drop.shift (Nat.le_refl 3)
    exact hvalue.separator fun v => some (k v)
  | turn _ _ _ _ ih ihk => exact LocalAt.map (ih.followedBy ihk.of_map_some) some

namespace Rules

theorem readExpr_localAt (rules : Rules) (floor : Strength) (ahead : List Token) :
    LocalAt 2 (rules.readExpr floor) ahead :=
  (readExpr_assembled (.trivial rules) floor ahead).localAt

theorem readOperand_localAt (rules : Rules) (ahead : List Token) :
    LocalAt 2 rules.readOperand ahead :=
  (readOperand_assembled (.trivial rules) ahead).localAt

/-- A statement is given the current token apart from what follows it. -/
theorem readStmt_localAt (rules : Rules) (t : Token) (next : List Token) :
    LocalAt 1 (rules.readStmt t) next :=
  (readStmt_assembled (.trivial rules) t next).localAt.cons

end Rules

end Treewalk
