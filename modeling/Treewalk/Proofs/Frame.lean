import Treewalk.Proofs.Carriers

/-!
# What evaluation leaves alone

A tree binds the names that are the target of a binding in it, at any depth: in a block, in the
condition in front of it, in an operand, or in the value of another binding. Evaluation sets these
names and no others, always on the innermost level, and it takes no binding away. None of this
depends on how the evaluation ends, so it holds of one that is cut short by a result or a fault.

One environment comes from the other by `Env.Writes`; what is left alone is read off that relation.
-/

namespace Treewalk

/-! ## The names a tree binds -/

mutual

/-- The targets of the bindings in an expression, at any depth. -/
def Expr.binds : Expr → List String
  | .reference _ | .integer _ _ | .boolean _ _ => []
  | .unary _ _ operand => operand.binds
  | .binary _ left _ right => left.binds ++ right.binds
  | .conditional _ condition consequence alternative =>
    condition.binds ++ consequence.binds ++ Block.bindsIfAny alternative

/-- The targets of the bindings in a block. -/
def Block.binds : Block → List String
  | ⟨_, statements⟩ => Stmt.bindsAll statements

/-- The targets of the bindings in a block, if there is one. -/
def Block.bindsIfAny : Option Block → List String
  | none => []
  | some body => body.binds

/-- The targets of the bindings in a statement: its own, if it is one, and those in its value. -/
def Stmt.binds : Stmt → List String
  | .binding _ name value => name.value :: Expr.bindsIfAny value
  | .result _ value => Expr.bindsIfAny value
  | .expression _ value => value.binds
  | .block body => body.binds

/-- The targets of the bindings in an expression, if there is one. -/
def Expr.bindsIfAny : Option Expr → List String
  | none => []
  | some value => value.binds

/-- The targets of the bindings in statements. -/
def Stmt.bindsAll : List Stmt → List String
  | [] => []
  | statement :: rest => statement.binds ++ Stmt.bindsAll rest

end

/-- The targets of the bindings in a tree. -/
def Node.binds : Node → List String
  | .program p => Stmt.bindsAll p.statements
  | .block b => b.binds
  | .statement s => s.binds
  | .expression e => e.binds

/-! ## What writing leaves alone -/

namespace Env.Writes

variable {allowed : String → Value → Prop} {env env' : Env} {name : String}

theorem enclosing_eq (h : Writes allowed env env') : env'.enclosing = env.enclosing := by
  induction h with
  | refl => rfl
  | set _ _ ih => rw [enclosing_set, ih]

/-- A name stays bound on the innermost level, to whatever. -/
theorem isSome_lookup (h : Writes allowed env env') (hbound : (env.innermost.lookup name).isSome) :
    (env'.innermost.lookup name).isSome := by
  induction h with
  | refl => exact hbound
  | set _ _ ih =>
    rw [lookup_innermost_set]
    split
    · rfl
    · exact ih

/-- A name that is found is found afterwards. -/
theorem isSome_get? (h : Writes allowed env env') (hbound : (env.get? name).isSome) :
    (env'.get? name).isSome := by
  induction h with
  | refl => exact hbound
  | set _ _ ih =>
    rw [get?_set]
    split
    · rfl
    · exact ih

/-- Where nothing may be written, nothing is. -/
theorem eq_of_forall_not (h : Writes allowed env env') (hnone : ∀ name v, ¬allowed name v) :
    env' = env := by
  cases h with
  | refl => rfl
  | set _ hv => exact absurd hv (hnone _ _)

end Env.Writes

/-! ## Evaluation -/

section

variable {target : String → Prop}

mutual

theorem Expr.eval_writes : ∀ (e : Expr), (∀ name ∈ e.binds, target name) → ∀ env : Env,
    env.Writes (fun name _ => target name) (e.eval env).2
  | .reference _, _, _ | .integer _ _, _, _ | .boolean _ _, _, _ => .refl
  | .unary token op operand, hbinds, env => by
    have h := operand.eval_writes hbinds env
    rw [Expr.eval_unary]
    split
    · exact h
    · exact h
  | .binary token left op right, hbinds, env => by
    obtain ⟨hl, hr⟩ := List.forall_mem_append.mp hbinds
    have hleft := left.eval_writes hl env
    have hright := hleft.trans (right.eval_writes hr (left.eval env).2)
    rw [Expr.eval_binary]
    split
    · exact hleft
    · split
      · exact hright
      · exact hright
  | .conditional token condition consequence alternative, hbinds, env => by
    obtain ⟨hfirst, ha⟩ := List.forall_mem_append.mp hbinds
    obtain ⟨hc, hb⟩ := List.forall_mem_append.mp hfirst
    have hcondition := condition.eval_writes hc env
    rw [Expr.eval_conditional]
    split
    · exact hcondition
    · split
      · exact hcondition.trans (consequence.eval_writes hb _)
      · exact hcondition.trans (Block.evalIfAny_writes alternative ha _)

theorem Block.eval_writes : ∀ (b : Block), (∀ name ∈ b.binds, target name) → ∀ env : Env,
    env.Writes (fun name _ => target name) (b.eval env).2
  | ⟨_, statements⟩, hbinds, env => Stmt.evalAll_writes statements none hbinds env

theorem Block.evalIfAny_writes : ∀ (b : Option Block),
    (∀ name ∈ Block.bindsIfAny b, target name) → ∀ env : Env,
    env.Writes (fun name _ => target name) (Block.evalIfAny b env).2
  | none, _, _ => .refl
  | some b, hbinds, env => b.eval_writes hbinds env

theorem Stmt.eval_writes : ∀ (s : Stmt), (∀ name ∈ s.binds, target name) → ∀ env : Env,
    env.Writes (fun name _ => target name) (s.eval env).2
  | .binding token name value, hbinds, env => by
    obtain ⟨hname, hvalue⟩ := List.forall_mem_cons.mp hbinds
    have h := Expr.evalIfAny_writes value hvalue env
    rw [Stmt.eval_binding]
    split
    · exact h
    · exact .set h hname
  | .result token value, hbinds, env => by
    have h := Expr.evalIfAny_writes value hbinds env
    rw [Stmt.eval_result]
    split
    · exact h
    · exact h
  | .expression _ value, hbinds, env => value.eval_writes hbinds env
  | .block body, hbinds, env => body.eval_writes hbinds env

theorem Expr.evalIfAny_writes : ∀ (e : Option Expr),
    (∀ name ∈ Expr.bindsIfAny e, target name) → ∀ env : Env,
    env.Writes (fun name _ => target name) (Expr.evalIfAny e env).2
  | none, _, _ => .refl
  | some e, hbinds, env => e.eval_writes hbinds env

theorem Stmt.evalAll_writes : ∀ (statements : List Stmt) (last : Option Value),
    (∀ name ∈ Stmt.bindsAll statements, target name) → ∀ env : Env,
    env.Writes (fun name _ => target name) (Stmt.evalAll last statements env).2
  | [], _, _, _ => .refl
  | statement :: rest, last, hbinds, env => by
    obtain ⟨hs, hr⟩ := List.forall_mem_append.mp hbinds
    have hfirst := statement.eval_writes hs env
    rw [Stmt.evalAll_cons]
    split
    · exact hfirst
    · exact hfirst.trans (Stmt.evalAll_writes rest _ hr _)

end

end

namespace Node

theorem eval_writes (node : Node) (env : Env) :
    env.Writes (fun name _ => name ∈ node.binds) (node.eval env).2 := by
  cases node with
  | program p => exact Stmt.evalAll_writes p.statements none (fun _ h => h) env
  | block b => exact b.eval_writes (fun _ h => h) env
  | statement s => exact s.eval_writes (fun _ h => h) env
  | expression e => exact e.eval_writes (fun _ h => h) env

/-- **Evaluation leaves alone what it does not bind.** Whatever the tree and the environment, and
however the evaluation ends: the levels around the innermost one stay as they are, a name has
another binding on the innermost level only if it is the target of a binding in the tree, and a name
that was bound is bound, on that level as well as through all of them. Without any binding in the
tree the environment is the same. -/
theorem eval_frame (node : Node) (env : Env) :
    (node.eval env).2.enclosing = env.enclosing ∧
    (∀ name, (node.eval env).2.innermost.lookup name ≠ env.innermost.lookup name →
      name ∈ node.binds) ∧
    (∀ name, ((env.innermost.lookup name).isSome →
        ((node.eval env).2.innermost.lookup name).isSome) ∧
      ((env.get? name).isSome → ((node.eval env).2.get? name).isSome)) ∧
    (node.binds = [] → (node.eval env).2 = env) := by
  have hwrites := node.eval_writes env
  refine ⟨hwrites.enclosing_eq, fun name hne => ?_, fun name => ?_, fun hnone => ?_⟩
  · obtain ⟨_, -, htarget⟩ := hwrites.allowed_of_lookup_ne hne
    exact htarget
  · exact ⟨hwrites.isSome_lookup, hwrites.isSome_get?⟩
  · refine hwrites.eq_of_forall_not fun name _ hname => ?_
    rw [hnone] at hname
    cases hname

/-- The expression `(if (a) { let x = a; x }) + a`. -/
def bindingInOperand : Expr :=
  .binary ⟨.plus, "+"⟩
    (.conditional ⟨.kwIf, "if"⟩ (.reference ⟨⟨.ident, "a"⟩, "a"⟩)
      ⟨⟨.lbrace, "\x7b"⟩,
        [.binding ⟨.kwLet, "let"⟩ ⟨⟨.ident, "x"⟩, "x"⟩ (some (.reference ⟨⟨.ident, "a"⟩, "a"⟩)),
          .expression ⟨.ident, "x"⟩ (.reference ⟨⟨.ident, "x"⟩, "x"⟩)]⟩ none)
    .add (.reference ⟨⟨.ident, "a"⟩, "a"⟩)

/-- Let `a` and `x` be bound on an outer level and `y` on the inner one. Then the expression ends in
a fault, but `x` is bound on the inner level by then. The outer level has the old `x`, and `y` is
left alone; so is everything by a reference. -/
theorem eval_frame_of_fault :
    let env := ((Env.empty.set "x" .null).set "a" (.boolean true)).enter.set "y" (.boolean false)
    let run := (Node.expression bindingInOperand).eval env
    let reference := Node.expression (.reference ⟨⟨.ident, "x"⟩, "x"⟩)
    run.1 = some (.error (.unknownBinary .boolean .add .boolean)) ∧
    run.2.enclosing = env.enclosing ∧
    (run.2.innermost.lookup "x" ≠ env.innermost.lookup "x" ∧
      "x" ∈ (Node.expression bindingInOperand).binds) ∧
    ((env.innermost.lookup "y").isSome ∧ (run.2.innermost.lookup "y").isSome) ∧
    ((env.get? "x").isSome ∧ (run.2.get? "x").isSome) ∧
    (reference.binds = [] ∧ (reference.eval env).2 = env) := by
  intro env run reference
  obtain ⟨houter, htarget, hbound, -⟩ := eval_frame (.expression bindingInOperand) env
  have hx : run.2.innermost.lookup "x" ≠ env.innermost.lookup "x" := by decide
  exact ⟨by decide, houter, ⟨hx, htarget "x" hx⟩, ⟨by decide, (hbound "y").1 (by decide)⟩,
    ⟨by decide, (hbound "x").2 (by decide)⟩, rfl, (eval_frame reference env).2.2.2 rfl⟩

end Node

end Treewalk
