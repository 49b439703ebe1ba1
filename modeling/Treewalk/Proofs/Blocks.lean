import Treewalk.Proofs.Batch

/-!
# Blocks are transparent

A block among statements opens no level of bindings and stops nothing of its own accord: its
statements might as well stand where it stands. A carrier inside it stops the statements around it
too, since the block hands it on as it is, and only the program takes it apart.

Two things can be seen of a block all the same. One without statements yields nothing, where no
block at all would leave the value before it to be yielded. And as the branch of a conditional a
block without a value counts as null, which shows if no statement follows.
-/

namespace Treewalk

namespace Stmt

/-! ## Runs in two parts -/

/-- **A run goes on with what follows**, unless a carrier has stopped it. -/
theorem evalAll_append (second : List Stmt) : ∀ (first : List Stmt) {last : Option Value}
    (_ : ¬last.any Value.isCarrier) (env : Env),
    evalAll last (first ++ second) env =
      if (evalAll last first env).1.any Value.isCarrier then evalAll last first env
      else evalAll (evalAll last first env).1 second (evalAll last first env).2
  | [], last, hlast, env => (if_neg hlast).symm
  | statement :: first, last, _, env => by
    rw [List.cons_append, evalAll_cons, evalAll_cons]
    by_cases hstop : (statement.eval env).1.any Value.isCarrier
    · rw [if_pos hstop, if_pos hstop, if_pos hstop]
    · rw [if_neg hstop, if_neg hstop]
      exact evalAll_append second first hstop _

/-- Nothing has stopped a run from the start. -/
theorem evalAll_none_append (first second : List Stmt) (env : Env) :
    evalAll none (first ++ second) env =
      if (evalAll none first env).1.any Value.isCarrier then evalAll none first env
      else evalAll (evalAll none first env).1 second (evalAll none first env).2 := by
  have hnone : ¬(none : Option Value).any Value.isCarrier := Bool.false_ne_true
  exact evalAll_append second first hnone env

/-- Runs that are the same behind any value are the same behind any statements. -/
theorem evalAll_append_congr {second second' : List Stmt}
    (h : ∀ (last : Option Value) (env : Env), evalAll last second env = evalAll last second' env)
    (first : List Stmt) (env : Env) :
    evalAll none (first ++ second) env = evalAll none (first ++ second') env := by
  rw [evalAll_none_append, evalAll_none_append]
  split
  · rfl
  · exact h _ _

/-! ## Blocks and conditionals in a run -/

/-- The statement `if (true) { m }`, with whatever tokens. -/
def whenTrue (start keyword truth brace : Token) (m : List Stmt) : Stmt :=
  .expression start (.conditional keyword (.boolean truth true) ⟨brace, m⟩ none)

section

variable {m b : List Stmt} (t start keyword truth brace : Token) (last : Option Value) (env : Env)

/-- **The statements of a block stand for it**, if there is any statement in it or behind it. -/
theorem evalAll_block (h : m ≠ [] ∨ b ≠ []) :
    evalAll last (.block ⟨t, m⟩ :: b) env = evalAll last (m ++ b) env := by
  have hblock : evalAll last (.block ⟨t, m⟩ :: b) env = evalAll none (m ++ b) env :=
    (evalAll_none_append m b env).symm
  have hne : m ++ b ≠ [] := by
    intro heq
    obtain ⟨hm, hb⟩ := List.append_eq_nil_iff.mp heq
    exact h.elim (· hm) (· hb)
  rw [hblock, evalAll_of_ne_nil hne last none]

theorem eval_whenTrue :
    (whenTrue start keyword truth brace m).eval env =
      (some ((evalAll none m env).1.getD .null), (evalAll none m env).2) := rfl

/-- Where the block yields a value, the conditional yields it too. -/
theorem evalAll_whenTrue_of_some (h : (evalAll none m env).1 ≠ none) :
    evalAll last (whenTrue start keyword truth brace m :: b) env =
      evalAll last (.block ⟨t, m⟩ :: b) env := by
  obtain ⟨v, hv⟩ := Option.ne_none_iff_exists'.mp h
  have heval : (whenTrue start keyword truth brace m).eval env = evalAll none m env := by
    rw [eval_whenTrue, hv, Option.getD_some, ← hv]
  have hblock : (Stmt.block ⟨t, m⟩).eval env = evalAll none m env := rfl
  rw [evalAll_cons, evalAll_cons, heval, hblock]

/-- Where it yields none, the null of the conditional is forgotten by the next statement. -/
theorem evalAll_whenTrue_of_none (h : (evalAll none m env).1 = none) :
    evalAll last (whenTrue start keyword truth brace m :: b) env =
      evalAll (some .null) b (evalAll none m env).2 := by
  rw [evalAll_cons, eval_whenTrue, h]
  rfl

theorem evalAll_block_of_none (h : (evalAll none m env).1 = none) :
    evalAll last (.block ⟨t, m⟩ :: b) env = evalAll none b (evalAll none m env).2 := by
  have hblock : (Stmt.block ⟨t, m⟩).eval env = evalAll none m env := rfl
  rw [evalAll_cons, hblock, h]
  rfl

end

/-- A run through `a` and then `m` gets to the end of `m`, which yields no value. -/
def EndsWithoutValue (a m : List Stmt) (env : Env) : Prop :=
  ¬(evalAll none a env).1.any Value.isCarrier ∧
    (evalAll none m (evalAll none a env).2).1 = none

section

variable {a m b : List Stmt} (t start keyword truth brace : Token) {env : Env}

/-- **A conditional that is always taken is like a block**, unless the run ends with it and without
a value. -/
theorem evalAll_append_whenTrue (h : ¬(b = [] ∧ EndsWithoutValue a m env)) :
    evalAll none (a ++ whenTrue start keyword truth brace m :: b) env =
      evalAll none (a ++ .block ⟨t, m⟩ :: b) env := by
  rw [evalAll_none_append, evalAll_none_append]
  split
  · rfl
  · rename_i hgo
    by_cases hm : (evalAll none m (evalAll none a env).2).1 = none
    · -- the two differ by null and nothing, which the next statement forgets
      have hb : b ≠ [] := fun heq => h ⟨heq, hgo, hm⟩
      rw [evalAll_whenTrue_of_none _ _ _ _ _ _ hm, evalAll_block_of_none _ _ _ hm,
        evalAll_of_ne_nil hb]
    · exact evalAll_whenTrue_of_some _ _ _ _ _ _ _ hm

/-- In that case it yields null, where the block yields nothing. -/
theorem evalAll_append_of_endsWithoutValue (h : EndsWithoutValue a m env) :
    evalAll none (a ++ [.block ⟨t, m⟩]) env =
        (none, (evalAll none m (evalAll none a env).2).2) ∧
      evalAll none (a ++ [whenTrue start keyword truth brace m]) env =
        (some .null, (evalAll none m (evalAll none a env).2).2) := by
  obtain ⟨hgo, hm⟩ := h
  rw [evalAll_none_append, evalAll_none_append, if_neg hgo, if_neg hgo,
    evalAll_block_of_none _ _ _ hm, evalAll_whenTrue_of_none _ _ _ _ _ _ hm]
  exact ⟨rfl, rfl⟩

end

end Stmt

namespace Program

open Stmt

theorem eval_eq (statements : List Stmt) (env : Env) :
    (⟨statements⟩ : Program).eval env =
      ((evalAll none statements env).1.map Value.unwrapped, (evalAll none statements env).2) := rfl

/-- A program is what the run of its statements makes of it. -/
theorem eval_congr {first second : List Stmt} {env : Env}
    (h : evalAll none first env = evalAll none second env) :
    (⟨first⟩ : Program).eval env = (⟨second⟩ : Program).eval env := by
  rw [eval_eq, eval_eq, h]

/-- **Blocks are transparent.** In a program with statements `a` before a block and `b` behind it,
the block can be replaced by its own statements, unless there are neither any in it nor behind it.
It can also be made the branch of a conditional that is always taken, and the difference is null
instead of no value where the program ends with the block and the block with no value. -/
theorem eval_transparent (a m b : List Stmt) (t : Token) (env : Env) :
    (m ≠ [] ∨ b ≠ [] →
      (⟨a ++ [.block ⟨t, m⟩] ++ b⟩ : Program).eval env = (⟨a ++ m ++ b⟩ : Program).eval env) ∧
    ∀ start keyword truth brace : Token,
      let blocked := (⟨a ++ [.block ⟨t, m⟩] ++ b⟩ : Program).eval env
      let chosen := (⟨a ++ [whenTrue start keyword truth brace m] ++ b⟩ : Program).eval env
      (¬(b = [] ∧ EndsWithoutValue a m env) → chosen = blocked) ∧
        (b = [] ∧ EndsWithoutValue a m env →
          blocked.1 = none ∧ chosen.1 = some .null ∧ chosen.2 = blocked.2) := by
  refine ⟨fun h => ?_, fun start keyword truth brace => ⟨fun h => ?_, fun ⟨hb, h⟩ => ?_⟩⟩
  · rw [List.append_assoc, List.append_assoc]
    exact eval_congr (evalAll_append_congr (fun last env => evalAll_block t last env h) a env)
  · rw [List.append_assoc, List.append_assoc]
    exact eval_congr (evalAll_append_whenTrue t start keyword truth brace h)
  · obtain ⟨hblock, hchoice⟩ := evalAll_append_of_endsWithoutValue t start keyword truth brace h
    rw [hb, List.append_nil, List.append_nil, eval_eq, eval_eq, hblock, hchoice]
    exact ⟨rfl, rfl, rfl⟩

/-- The statement `let x = false;`. -/
def rebinding : Stmt :=
  .binding ⟨.kwLet, "let"⟩ ⟨⟨.ident, "x"⟩, "x"⟩ (some (.boolean ⟨.kwFalse, "false"⟩ false))

/-- The statement `return x;`. -/
def resultOfReference : Stmt :=
  .result ⟨.kwReturn, "return"⟩ (some (.reference ⟨⟨.ident, "x"⟩, "x"⟩))

/-- A result ends the program from within two blocks, with `x` as the outer one has bound it, and
what follows is not evaluated. A block that ends with a binding yields nothing at the end of a
program, and null as a branch there. -/
theorem eval_transparent_of_result :
    let t : Token := ⟨.lbrace, "\x7b"⟩
    let inner := [rebinding, .block ⟨t, [resultOfReference]⟩]
    let behind := [Stmt.binding ⟨.kwLet, "let"⟩ ⟨⟨.ident, "x"⟩, "x"⟩ none]
    (inner ≠ [] ∧
      (⟨[.block ⟨t, inner⟩] ++ behind⟩ : Program).eval .empty =
        (⟨inner ++ behind⟩ : Program).eval .empty) ∧
    (¬(behind = [] ∧ EndsWithoutValue [] inner .empty) ∧
      (⟨[whenTrue t t t t inner] ++ behind⟩ : Program).eval .empty =
        (some (.boolean false), ⟨[("x", .boolean false)], []⟩)) ∧
    EndsWithoutValue [] [rebinding] .empty ∧
      ((⟨[.block ⟨t, [rebinding]⟩]⟩ : Program).eval .empty).1 = none ∧
      ((⟨[whenTrue t t t t [rebinding]]⟩ : Program).eval .empty).1 = some .null := by
  intro t inner behind
  have hinner : inner ≠ [] := List.cons_ne_nil _ _
  have hbehind : ¬(behind = [] ∧ EndsWithoutValue [] inner .empty) :=
    fun h => absurd h.1 (List.cons_ne_nil _ _)
  have hends : EndsWithoutValue [] [rebinding] .empty := ⟨by decide, rfl⟩
  obtain ⟨hblock, hbranch⟩ := eval_transparent [] inner behind t .empty
  obtain ⟨hnone, hnull, -⟩ :=
    ((eval_transparent [] [rebinding] [] t .empty).2 t t t t).2 ⟨rfl, hends⟩
  exact ⟨⟨hinner, hblock (.inl hinner)⟩, ⟨hbehind, ((hbranch t t t t).1 hbehind).trans rfl⟩,
    hends, hnone, hnull⟩

end Program

end Treewalk
