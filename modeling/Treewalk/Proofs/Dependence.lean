import Mathlib.Data.Set.Defs
import Treewalk.Proofs.Carriers

/-!
# What evaluation depends on

A tree reads the names that are referred to in it, and evaluation asks the environment for nothing
else. Two environments that agree on these names may differ in all other respects, in the number of
their levels and in which of them binds what: evaluation yields the same in both and leaves them in
agreement. Nothing is asked of the bindings, so a name may be bound to a carrier.

Both runs are followed at once. `SameOn` relates what the two have come to, and every form of tree
combines related parts into related wholes.
-/

namespace Treewalk

/-! ## The names a tree reads -/

mutual

/-- The names an expression refers to, at any depth. -/
def Expr.reads : Expr → List String
  | .reference name => [name.value]
  | .integer _ _ | .boolean _ _ => []
  | .unary _ _ operand => operand.reads
  | .binary _ left _ right => left.reads ++ right.reads
  | .conditional _ condition consequence alternative =>
    condition.reads ++ consequence.reads ++ Block.readsIfAny alternative

/-- The names a block refers to. -/
def Block.reads : Block → List String
  | ⟨_, statements⟩ => Stmt.readsAll statements

/-- The names a block refers to, if there is one. -/
def Block.readsIfAny : Option Block → List String
  | none => []
  | some body => body.reads

/-- The names a statement refers to. The name that a binding binds is not one of them. -/
def Stmt.reads : Stmt → List String
  | .binding _ _ value | .result _ value => Expr.readsIfAny value
  | .expression _ value => value.reads
  | .block body => body.reads

/-- The names an expression refers to, if there is one. -/
def Expr.readsIfAny : Option Expr → List String
  | none => []
  | some value => value.reads

/-- The names statements refer to. -/
def Stmt.readsAll : List Stmt → List String
  | [] => []
  | statement :: rest => statement.reads ++ Stmt.readsAll rest

end

/-- The names a tree refers to. -/
def Node.reads : Node → List String
  | .program p => Stmt.readsAll p.statements
  | .block b => b.reads
  | .statement s => s.reads
  | .expression e => e.reads

/-! ## Agreement -/

/-- Two environments give the same answer for each of the names. -/
def Env.AgreeOn (names : Set String) (env env' : Env) : Prop :=
  ∀ name ∈ names, env.get? name = env'.get? name

/-- What a name is set to in both environments they agree on, whether they did before or not. -/
theorem Env.AgreeOn.set {names : Set String} {env env' : Env} (h : env.AgreeOn names env')
    (name : String) (value : Value) : (env.set name value).AgreeOn names (env'.set name value) := by
  intro other hother
  rw [get?_set, get?_set, h other hother]

/-- Two runs have come to the same outcome, in environments that agree. -/
structure SameOn {α : Type} (names : Set String) (run run' : α × Env) : Prop where
  outcome : run.1 = run'.1
  agree : run.2.AgreeOn names run'.2

namespace SameOn

variable {α β : Type} {names : Set String} {run run' other other' : α × Env}

/-- Runs that turn the same way stay related. -/
theorem ite {test test' : Bool} (htest : test = test') (hthen : SameOn names run run')
    (helse : SameOn names other other') :
    SameOn names (if test then run else other) (if test' then run' else other') := by
  subst htest
  split
  · exact hthen
  · exact helse

theorem map (h : SameOn names run run') (f : α → β) :
    SameOn names (f run.1, run.2) (f run'.1, run'.2) :=
  ⟨congrArg f h.outcome, h.agree⟩

end SameOn

/-! ## Evaluation -/

section

variable {names : Set String}

mutual

theorem Expr.eval_sameOn : ∀ (e : Expr), (∀ name ∈ e.reads, name ∈ names) →
    ∀ {env env' : Env}, env.AgreeOn names env' → SameOn names (e.eval env) (e.eval env')
  | .reference name, hreads, env, env', h => by
    have hname : env.get? name.value = env'.get? name.value :=
      h name.value (hreads name.value List.mem_cons_self)
    refine ⟨?_, h⟩
    simp only [Expr.eval, hname]
  | .integer _ _, _, _, _, h => ⟨rfl, h⟩
  | .boolean _ _, _, _, _, h => ⟨rfl, h⟩
  | .unary token op operand, hreads, env, env', h => by
    have hoperand := operand.eval_sameOn hreads h
    rw [Expr.eval_unary, Expr.eval_unary]
    exact .ite (congrArg Value.isCarrier hoperand.outcome) hoperand (hoperand.map op.apply)
  | .binary token left op right, hreads, env, env', h => by
    obtain ⟨hl, hr⟩ := List.forall_mem_append.mp hreads
    have hleft := left.eval_sameOn hl h
    -- the right operand is evaluated in what the left one has left behind, which agrees again
    have hright := right.eval_sameOn hr hleft.agree
    rw [Expr.eval_binary, Expr.eval_binary, hleft.outcome]
    refine .ite rfl ?_ (.ite (congrArg Value.isCarrier hright.outcome) hright (hright.map _))
    exact hleft
  | .conditional token condition consequence alternative, hreads, env, env', h => by
    obtain ⟨hfirst, ha⟩ := List.forall_mem_append.mp hreads
    obtain ⟨hc, hb⟩ := List.forall_mem_append.mp hfirst
    have hcondition := condition.eval_sameOn hc h
    have hconsequence := consequence.eval_sameOn hb hcondition.agree
    have halternative := Block.evalIfAny_sameOn alternative ha hcondition.agree
    rw [Expr.eval_conditional, Expr.eval_conditional]
    exact .ite (congrArg Value.isCarrier hcondition.outcome) hcondition
      (.ite (congrArg Value.isTruthy hcondition.outcome)
        (hconsequence.map (·.getD .null)) (halternative.map (·.getD .null)))

theorem Block.eval_sameOn : ∀ (b : Block), (∀ name ∈ b.reads, name ∈ names) →
    ∀ {env env' : Env}, env.AgreeOn names env' → SameOn names (b.eval env) (b.eval env')
  | ⟨_, statements⟩, hreads, _, _, h => Stmt.evalAll_sameOn statements none hreads h

theorem Block.evalIfAny_sameOn : ∀ (b : Option Block), (∀ name ∈ Block.readsIfAny b, name ∈ names) →
    ∀ {env env' : Env}, env.AgreeOn names env' →
      SameOn names (Block.evalIfAny b env) (Block.evalIfAny b env')
  | none, _, _, _, h => ⟨rfl, h⟩
  | some b, hreads, _, _, h => b.eval_sameOn hreads h

theorem Stmt.eval_sameOn : ∀ (s : Stmt), (∀ name ∈ s.reads, name ∈ names) →
    ∀ {env env' : Env}, env.AgreeOn names env' → SameOn names (s.eval env) (s.eval env')
  | .binding token name value, hreads, env, env', h => by
    have hvalue := Expr.evalIfAny_sameOn value hreads h
    rw [Stmt.eval_binding, Stmt.eval_binding, hvalue.outcome]
    exact .ite rfl ⟨rfl, hvalue.agree⟩ ⟨rfl, hvalue.agree.set _ _⟩
  | .result token value, hreads, env, env', h => by
    have hvalue := Expr.evalIfAny_sameOn value hreads h
    rw [Stmt.eval_result, Stmt.eval_result]
    exact .ite (congrArg Value.isCarrier hvalue.outcome) (hvalue.map some)
      (hvalue.map fun v => some (Value.returned v))
  | .expression _ value, hreads, _, _, h => (value.eval_sameOn hreads h).map some
  | .block body, hreads, _, _, h => body.eval_sameOn hreads h

theorem Expr.evalIfAny_sameOn : ∀ (e : Option Expr), (∀ name ∈ Expr.readsIfAny e, name ∈ names) →
    ∀ {env env' : Env}, env.AgreeOn names env' →
      SameOn names (Expr.evalIfAny e env) (Expr.evalIfAny e env')
  | none, _, _, _, h => ⟨rfl, h⟩
  | some e, hreads, _, _, h => e.eval_sameOn hreads h

theorem Stmt.evalAll_sameOn : ∀ (statements : List Stmt) (last : Option Value),
    (∀ name ∈ Stmt.readsAll statements, name ∈ names) →
    ∀ {env env' : Env}, env.AgreeOn names env' →
      SameOn names (Stmt.evalAll last statements env) (Stmt.evalAll last statements env')
  | [], _, _, _, _, h => ⟨rfl, h⟩
  | statement :: rest, last, hreads, env, env', h => by
    obtain ⟨hs, hr⟩ := List.forall_mem_append.mp hreads
    have hfirst := statement.eval_sameOn hs h
    rw [Stmt.evalAll_cons, Stmt.evalAll_cons]
    refine .ite (congrArg (Option.any Value.isCarrier) hfirst.outcome) hfirst ?_
    rw [hfirst.outcome]
    exact Stmt.evalAll_sameOn rest _ hr hfirst.agree

end

end

namespace Node

/-- **Evaluation depends on the environment only through the names it reads.** Whatever the tree,
and however two environments are built, if they agree on a set of names that has all those the tree
reads, then evaluation yields the same in both and they agree on that set afterwards. -/
theorem eval_depends_on_reads (node : Node) (names : Set String)
    (hreads : ∀ name ∈ node.reads, name ∈ names) (env env' : Env)
    (h : ∀ name ∈ names, env.get? name = env'.get? name) :
    (node.eval env).1 = (node.eval env').1 ∧
      ∀ name ∈ names, (node.eval env).2.get? name = (node.eval env').2.get? name := by
  have hsame : SameOn names (node.eval env) (node.eval env') := by
    cases node with
    | program p =>
      exact (Stmt.evalAll_sameOn p.statements none hreads h).map (·.map Value.unwrapped)
    | block b => exact b.eval_sameOn hreads h
    | statement s => exact s.eval_sameOn hreads h
    | expression e => exact (e.eval_sameOn hreads h).map some
  exact ⟨hsame.outcome, hsame.agree⟩

/-- The program `let x = a; if (x) { b }`. -/
def readsBindings : Program :=
  ⟨[.binding ⟨.kwLet, "let"⟩ ⟨⟨.ident, "x"⟩, "x"⟩ (some (.reference ⟨⟨.ident, "a"⟩, "a"⟩)),
    .expression ⟨.kwIf, "if"⟩ (.conditional ⟨.kwIf, "if"⟩ (.reference ⟨⟨.ident, "x"⟩, "x"⟩)
      ⟨⟨.lbrace, "\x7b"⟩,
        [.expression ⟨.ident, "b"⟩ (.reference ⟨⟨.ident, "b"⟩, "b"⟩)]⟩ none)]⟩

/-- On one level or spread over two, among other bindings or not, the carrier bound to `b` ends the
program, and `x` is bound by then. -/
theorem eval_depends_on_reads_spread :
    let names : Set String := {name | name ∈ ["a", "x", "b"]}
    let env := (Env.empty.set "a" (.boolean true)).set "b" (.returned .null)
    let env' := ((Env.empty.set "b" (.returned .null)).set "z" .null).enter.set "a" (.boolean true)
    (∀ name ∈ names, env.get? name = env'.get? name) ∧
    ((readsBindings.eval env).1 = (readsBindings.eval env').1 ∧
      ∀ name ∈ names,
        (readsBindings.eval env).2.get? name = (readsBindings.eval env').2.get? name) ∧
    (readsBindings.eval env').1 = some .null ∧
    (readsBindings.eval env').2.innermost = [("x", .boolean true), ("a", .boolean true)] := by
  intro names env env'
  have hagree : ∀ name ∈ ["a", "x", "b"], env.get? name = env'.get? name := by decide
  have heval := eval_depends_on_reads (.program readsBindings) names (fun _ h => h) env env' hagree
  exact ⟨hagree, heval, by decide, by decide⟩

end Node

end Treewalk
