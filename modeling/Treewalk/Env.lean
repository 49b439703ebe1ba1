import Treewalk.Value

/-!
# Environments

An environment is a stack of levels of bindings with at least one level. A name is looked up from
the innermost level outwards and is always set on the innermost one, where a new value hides an
old one. Entering a level puts an empty one on top; leaving drops it, and leaving the last level
starts an empty environment.
-/

namespace Treewalk

/-- One level of bindings, latest first. -/
abbrev Bindings := List (String × Value)

/-- A stack of levels. -/
structure Env where
  innermost : Bindings
  /-- The levels around it, inner ones first. -/
  enclosing : List Bindings

namespace Env

/-- The environment with one level and no bindings. -/
def empty : Env := ⟨[], []⟩

/-- The levels, innermost first. -/
def levels (env : Env) : List Bindings := env.innermost :: env.enclosing

/-- The value of a name on the innermost level that binds it. -/
def get? (env : Env) (name : String) : Option Value :=
  env.levels.findSome? fun level => level.lookup name

/-- Binds a name on the innermost level. -/
def set (env : Env) (name : String) (value : Value) : Env :=
  { env with innermost := (name, value) :: env.innermost }

/-- Binds names in order. -/
def setAll (env : Env) (bindings : List (String × Value)) : Env :=
  bindings.foldl (fun e binding => e.set binding.1 binding.2) env

/-- Enters a level. -/
def enter (env : Env) : Env := ⟨[], env.levels⟩

/-- Leaves the innermost level. -/
def leave (env : Env) : Env :=
  match env.enclosing with
  | [] => empty
  | level :: rest => ⟨level, rest⟩

@[simp] theorem get?_empty (name : String) : empty.get? name = none := rfl

/-- The latest value of a name is found, and no other name is touched. -/
theorem get?_set (env : Env) (name other : String) (value : Value) :
    (env.set name value).get? other = if other = name then some value else env.get? other := by
  by_cases h : other = name
  · simp [get?, levels, set, h]
  · have hne : (other == name) = false := by simp [h]
    simp only [get?, levels, set, List.findSome?_cons, List.lookup_cons, hne, h, if_false]

@[simp] theorem enclosing_set (env : Env) (name : String) (value : Value) :
    (env.set name value).enclosing = env.enclosing := rfl

/-- A new level sees what the levels around it bind. -/
@[simp] theorem get?_enter (env : Env) (name : String) : env.enter.get? name = env.get? name := rfl

/-- Leaving undoes entering. -/
@[simp] theorem leave_enter (env : Env) : env.enter.leave = env := rfl

end Env

end Treewalk
