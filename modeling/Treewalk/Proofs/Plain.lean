import Treewalk.Eval

/-!
# Plain values

Integers, truth values and null are plain; the two carriers are not. Evaluation sets names to plain
values only, whatever the environment it starts in: `Writes` says which values one environment came
from another by setting. In an environment whose bindings are all plain no carrier is ever inside
another, so what is yielded is plain, a fault, or a plain value on its way out.

Both facts are one induction over the tree, since the environment in which an operand is evaluated
is the one its left neighbour has left behind.
-/

namespace Treewalk

namespace Value

/-- The value carries no control. -/
def IsPlain : Value → Prop
  | .integer _ | .boolean _ | .null => True
  | .returned _ | .error _ => False

/-- A returned value is plain inside. -/
def Unnested : Value → Prop
  | .returned value => value.IsPlain
  | _ => True

variable {v : Value}

theorem isPlain_iff : v.IsPlain ↔ v.isCarrier = false := by
  cases v <;> simp [IsPlain, isCarrier]

theorem IsPlain.unnested (h : v.IsPlain) : v.Unnested := by
  cases v with
  | returned _ | error _ => exact h.elim
  | integer _ | boolean _ | null => trivial

/-- So nothing returned is left once it is taken apart. -/
theorem Unnested.unwrapped_ne_returned (h : v.Unnested) (w : Value) : v.unwrapped ≠ .returned w := by
  cases v with
  | returned inner =>
    intro heq
    have hinner : inner = .returned w := heq
    rw [hinner] at h
    exact h
  | integer _ | boolean _ | null | error _ => exact nofun

/-- The outcome of arithmetic is an integer or a fault. -/
theorem exactly_ne_returned (n : Int) (expression : String) (v : Value) :
    exactly n expression ≠ .returned v := by
  unfold exactly
  split <;> exact nofun

end Value

/-! ## Operators -/

/-- **No operator returns.** -/
theorem UnaryOp.apply_ne_returned (op : UnaryOp) (operand v : Value) :
    op.apply operand ≠ .returned v := by
  unfold UnaryOp.apply
  split
  case h_4 => exact Value.exactly_ne_returned _ _ v
  all_goals exact nofun

theorem BinaryOp.applyIntegers_ne_returned (op : BinaryOp) (a b : Integer) (v : Value) :
    op.applyIntegers a b ≠ .returned v := by
  cases op with
  | add | sub | mul => exact Value.exactly_ne_returned _ _ v
  | div =>
    unfold BinaryOp.applyIntegers
    simp only
    split
    · exact nofun
    · exact Value.exactly_ne_returned _ _ v
  | less | greater | equal | notEqual => exact nofun

theorem BinaryOp.apply_ne_returned (op : BinaryOp) (left right v : Value) :
    op.apply left right ≠ .returned v := by
  unfold BinaryOp.apply
  split
  · exact op.applyIntegers_ne_returned _ _ v
  · split
    · exact nofun
    · exact nofun
    · split <;> exact nofun

theorem Value.unnested_of_ne_returned {v : Value} (h : ∀ w, v ≠ .returned w) : v.Unnested := by
  cases v with
  | returned w => exact absurd rfl (h w)
  | integer _ | boolean _ | null | error _ => trivial

/-! ## Environments -/

namespace Env

/-- Every binding of every level is plain. -/
def IsPlain (env : Env) : Prop :=
  ∀ level ∈ env.levels, ∀ name v, level.lookup name = some v → v.IsPlain

/-- The second environment came from the first by setting names, each time to a value that was
allowed for it. -/
inductive Writes (allowed : String → Value → Prop) (env : Env) : Env → Prop
  | refl : Writes allowed env env
  | set {env' : Env} {name : String} {v : Value} :
      Writes allowed env env' → allowed name v → Writes allowed env (env'.set name v)

variable {allowed : String → Value → Prop} {env env' env'' : Env} {name : String} {v : Value}

theorem isPlain_empty : empty.IsPlain := by
  intro level hlevel name v h
  obtain rfl := List.mem_singleton.mp hlevel
  cases h

theorem lookup_innermost_set (env : Env) (name other : String) (v : Value) :
    (env.set name v).innermost.lookup other =
      if other = name then some v else env.innermost.lookup other := by
  by_cases h : other = name
  · simp [set, h]
  · have hne : (other == name) = false := by simp [h]
    simp only [set, List.lookup_cons, hne, h, if_false]

theorem IsPlain.set (h : env.IsPlain) (hv : v.IsPlain) : (env.set name v).IsPlain := by
  intro level hlevel other w hw
  rcases List.mem_cons.mp hlevel with rfl | hmem
  · rw [lookup_innermost_set] at hw
    split at hw
    · exact Option.some.inj hw ▸ hv
    · exact h _ List.mem_cons_self other w hw
  · exact h level (List.mem_cons_of_mem _ hmem) other w hw

theorem IsPlain.enter (h : env.IsPlain) : env.enter.IsPlain := by
  intro level hlevel
  rcases List.mem_cons.mp hlevel with rfl | hmem
  · exact nofun
  · exact h level hmem

/-- A name that is found in a plain environment is bound to a plain value. -/
theorem IsPlain.get? (h : env.IsPlain) (hv : env.get? name = some v) : v.IsPlain := by
  obtain ⟨level, hlevel, hlookup⟩ := List.exists_of_findSome?_eq_some hv
  exact h level hlevel name v hlookup

namespace Writes

theorem trans (h : Writes allowed env env') (h' : Writes allowed env' env'') :
    Writes allowed env env'' := by
  induction h' with
  | refl => exact h
  | set _ hv ih => exact .set ih hv

/-- **A binding that is not as before was written.** -/
theorem allowed_of_lookup_ne (h : Writes allowed env env')
    (hne : env'.innermost.lookup name ≠ env.innermost.lookup name) :
    ∃ v, env'.innermost.lookup name = some v ∧ allowed name v := by
  induction h with
  | refl => exact absurd rfl hne
  | @set env' other v _ hv ih =>
    rw [lookup_innermost_set] at hne ⊢
    by_cases heq : name = other
    · subst heq
      exact ⟨v, if_pos rfl, hv⟩
    · rw [if_neg heq] at hne ⊢
      exact ih hne

/-- What is written to a plain environment leaves it plain, if it is plain itself. -/
theorem isPlain (h : Writes (fun _ v => v.IsPlain) env env') (hplain : env.IsPlain) :
    env'.IsPlain := by
  induction h with
  | refl => exact hplain
  | set _ hv ih => exact ih.set hv

end Writes

end Env

/-! ## Evaluation -/

/-- What every evaluation keeps to, from the environment before it to its outcome and the
environment after it. -/
structure Keeps (before : Env) (outcome : Option Value) (after : Env) : Prop where
  /-- Only plain values are written. -/
  writes : before.Writes (fun _ v => v.IsPlain) after
  /-- Where all bindings are plain, carriers do not nest. -/
  unnested : before.IsPlain → ∀ v, outcome = some v → v.Unnested

namespace Keeps

variable {before between after : Env} {outcome outcome' : Option Value} {v : Value}

/-- The outcome of a later part stands for the whole. -/
theorem trans (h : Keeps before outcome between) (h' : Keeps between outcome' after) :
    Keeps before outcome' after :=
  ⟨h.writes.trans h'.writes, fun hplain => h'.unnested (h.writes.isPlain hplain)⟩

/-- So does any outcome that is not nested. -/
theorem of_unnested (h : Keeps before outcome after) (hv : v.Unnested) :
    Keeps before (some v) after :=
  ⟨h.writes, fun _ _ heq => Option.some.inj heq ▸ hv⟩

theorem refl (env : Env) (v : Value) (hv : v.Unnested) : Keeps env (some v) env :=
  ⟨.refl, fun _ _ heq => Option.some.inj heq ▸ hv⟩

theorem none_refl (env : Env) : Keeps env none env := ⟨.refl, fun _ _ heq => nomatch heq⟩

/-- An outcome that is missing counts as null. -/
theorem getD_null (h : Keeps before outcome after) : Keeps before (some (outcome.getD .null)) after := by
  cases outcome with
  | none => exact h.of_unnested trivial
  | some v => exact h

end Keeps

mutual

theorem Expr.keeps_eval : ∀ (e : Expr) (env : Env), Keeps env (some (e.eval env).1) (e.eval env).2
  | .reference name, env => by
    refine ⟨.refl, fun hplain v heq => ?_⟩
    obtain rfl := Option.some.inj heq
    cases hget : env.get? name.value with
    | none => simp only [Expr.eval, hget]; trivial
    | some w => simp only [Expr.eval, hget]; exact (hplain.get? hget).unnested
  | .integer _ value, env => .refl env (.integer value) trivial
  | .boolean _ value, env => .refl env (.boolean value) trivial
  | .unary token op operand, env => by
    have h := operand.keeps_eval env
    rw [Expr.eval_unary]
    split
    · exact h
    · exact h.of_unnested (Value.unnested_of_ne_returned (op.apply_ne_returned _))
  | .binary token left op right, env => by
    have hleft := left.keeps_eval env
    have hright := hleft.trans (right.keeps_eval (left.eval env).2)
    rw [Expr.eval_binary]
    split
    · exact hleft
    · split
      · exact hright
      · exact hright.of_unnested (Value.unnested_of_ne_returned (op.apply_ne_returned _ _))
  | .conditional token condition consequence alternative, env => by
    have hcond := condition.keeps_eval env
    rw [Expr.eval_conditional]
    split
    · exact hcond
    · split
      · exact (hcond.trans (consequence.keeps_eval _)).getD_null
      · exact (hcond.trans (Block.keeps_evalIfAny alternative _)).getD_null

theorem Block.keeps_eval : ∀ (b : Block) (env : Env), Keeps env (b.eval env).1 (b.eval env).2
  | ⟨_, statements⟩, env => by
    rw [Block.eval]
    exact Stmt.keeps_evalAll statements none env (fun _ h => nomatch h)

theorem Block.keeps_evalIfAny : ∀ (b : Option Block) (env : Env),
    Keeps env (Block.evalIfAny b env).1 (Block.evalIfAny b env).2
  | none, env => .none_refl env
  | some b, env => b.keeps_eval env

theorem Stmt.keeps_eval : ∀ (s : Stmt) (env : Env), Keeps env (s.eval env).1 (s.eval env).2
  | .binding token name value, env => by
    have h := Expr.keeps_evalIfAny value env
    rw [Stmt.eval_binding]
    split
    · exact h
    · rename_i hcarrier
      -- what is set has passed the test, so nothing needs to be known of the environment
      have hplain := Value.isPlain_iff.mpr (Bool.eq_false_iff.mpr hcarrier)
      exact ⟨.set h.writes hplain, fun _ _ heq => nomatch heq⟩
  | .result token value, env => by
    have h := Expr.keeps_evalIfAny value env
    rw [Stmt.eval_result]
    split
    · exact h
    · rename_i hcarrier
      exact h.of_unnested (Value.isPlain_iff.mpr (Bool.eq_false_iff.mpr hcarrier))
  | .expression _ value, env => value.keeps_eval env
  | .block body, env => body.keeps_eval env

theorem Expr.keeps_evalIfAny : ∀ (e : Option Expr) (env : Env),
    Keeps env (some (Expr.evalIfAny e env).1) (Expr.evalIfAny e env).2
  | none, env => .refl env .null trivial
  | some e, env => e.keeps_eval env

theorem Stmt.keeps_evalAll : ∀ (statements : List Stmt) (last : Option Value) (env : Env),
    (∀ v, last = some v → v.Unnested) →
    Keeps env (Stmt.evalAll last statements env).1 (Stmt.evalAll last statements env).2
  | [], last, env, hlast => ⟨.refl, fun _ => hlast⟩
  | statement :: rest, last, env, hlast => by
    have hfirst := statement.keeps_eval env
    rw [Stmt.evalAll_cons]
    split
    · exact hfirst
    · rename_i hcarrier
      refine hfirst.trans (Stmt.keeps_evalAll rest _ _ fun v heq => ?_)
      rw [heq] at hcarrier
      exact (Value.isPlain_iff.mpr (Bool.eq_false_iff.mpr hcarrier)).unnested

end

/-- Nothing has to be known of a run from the start. -/
theorem Stmt.keeps_evalAll_none (statements : List Stmt) (env : Env) :
    Keeps env (Stmt.evalAll none statements env).1 (Stmt.evalAll none statements env).2 :=
  Stmt.keeps_evalAll statements none env fun _ h => nomatch h

end Treewalk
