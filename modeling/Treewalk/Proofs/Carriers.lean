import Treewalk.Proofs.Plain

/-!
# Carriers stay on their way out

A carrier is handed outward and nothing else is done with it: it is not put into another, not bound
to a name, and a program takes the last one apart. The main statement is about evaluations in a
row, of any trees, and about every evaluation made in the course of them: `Makes` follows an
evaluation into its parts, each with the environment it is made in.
-/

namespace Treewalk

/-- A tree that can be evaluated. -/
inductive Node where
  | program (program : Program)
  | block (block : Block)
  | statement (statement : Stmt)
  | expression (expression : Expr)

namespace Node

/-- Evaluates a tree. -/
def eval : Node → Env → Option Value × Env
  | .program p, env => p.eval env
  | .block b, env => b.eval env
  | .statement s, env => s.eval env
  | .expression e, env => (some (e.eval env).1, (e.eval env).2)

/-! ## Evaluations inside an evaluation -/

/-- The evaluations of statements in order, up to the first that ends in a carrier. -/
def sequence : List Stmt → Env → List (Node × Env)
  | [], _ => []
  | s :: rest, env =>
    (.statement s, env) ::
      if (s.eval env).1.any Value.isCarrier then [] else sequence rest (s.eval env).2

/-- The evaluations that an evaluation is made up of, each with the environment it is made in. -/
def parts : Node → Env → List (Node × Env)
  | .program ⟨statements⟩, env => sequence statements env
  | .block ⟨_, statements⟩, env => sequence statements env
  | .statement (.binding _ _ value), env => value.toList.map fun e => (.expression e, env)
  | .statement (.result _ value), env => value.toList.map fun e => (.expression e, env)
  | .statement (.expression _ value), env => [(.expression value, env)]
  | .statement (.block body), env => [(.block body, env)]
  | .expression (.unary _ _ operand), env => [(.expression operand, env)]
  | .expression (.binary _ left _ right), env =>
    (.expression left, env) ::
      if (left.eval env).1.isCarrier then [] else [(.expression right, (left.eval env).2)]
  | .expression (.conditional _ condition consequence alternative), env =>
    (.expression condition, env) ::
      if (condition.eval env).1.isCarrier then []
      else if (condition.eval env).1.isTruthy then [(.block consequence, (condition.eval env).2)]
      else alternative.toList.map fun b => (.block b, (condition.eval env).2)
  | .expression _, _ => []

/-- To evaluate the first tree, the second is evaluated in its environment, or is the first. -/
inductive Makes (node : Node) (env : Env) : Node → Env → Prop
  | self : Makes node env node env
  | part {inner part : Node} {env' env'' : Env} :
      Makes node env inner env' → (part, env'') ∈ inner.parts env' → Makes node env part env''

variable {node inner : Node} {env env' : Env}

/-- A program yields no returned value where carriers do not nest. -/
theorem eval_program_ne_returned (p : Program) (hplain : env.IsPlain) (v : Value) :
    (p.eval env).1 ≠ some (.returned v) := by
  intro h
  obtain ⟨w, hw, hunwrapped⟩ := Option.map_eq_some_iff.mp h
  have hunnested : w.Unnested :=
    (Stmt.keeps_evalAll_none p.statements env).unnested hplain w hw
  exact hunnested.unwrapped_ne_returned v hunwrapped

theorem keeps_eval (node : Node) (env : Env) : Keeps env (node.eval env).1 (node.eval env).2 := by
  cases node with
  | program p =>
    refine ⟨(Stmt.keeps_evalAll_none p.statements env).writes, ?_⟩
    rintro hplain v heq
    refine Value.unnested_of_ne_returned fun w hw => ?_
    exact eval_program_ne_returned p hplain w (heq.trans (congrArg some hw))
  | block b => exact b.keeps_eval env
  | statement s => exact s.keeps_eval env
  | expression e => exact e.keeps_eval env

/-! ## The environments of the parts -/

theorem writes_of_mem_sequence (statements : List Stmt) {env : Env}
    (h : (inner, env') ∈ sequence statements env) :
    env.Writes (fun _ v => v.IsPlain) env' := by
  induction statements generalizing env with
  | nil => cases h
  | cons s rest ih =>
    rcases List.mem_cons.mp h with heq | hrest
    · obtain ⟨-, rfl⟩ := Prod.mk.inj heq
      exact .refl
    · split at hrest
      · cases hrest
      · exact (s.keeps_eval env).writes.trans (ih hrest)

/-- **A part is evaluated in what earlier parts have left behind**, which differs from the
environment of the whole by plain values only. -/
theorem writes_of_mem_parts (h : (inner, env') ∈ node.parts env) :
    env.Writes (fun _ v => v.IsPlain) env' := by
  cases node with
  | program p => exact writes_of_mem_sequence p.statements h
  | block b =>
    obtain ⟨_, statements⟩ := b
    exact writes_of_mem_sequence statements h
  | statement s =>
    -- whatever there is to evaluate is evaluated first
    have henv : env' = env := by
      cases s with
      | binding _ _ value | result _ value =>
        obtain ⟨e, -, heq⟩ := List.mem_map.mp h
        exact (Prod.mk.inj heq).2.symm
      | expression _ _ | block _ => exact (Prod.mk.inj (List.mem_singleton.mp h)).2
    exact henv ▸ .refl
  | expression e =>
    cases e with
    | reference _ | integer _ _ | boolean _ _ => cases h
    | unary _ _ operand =>
      obtain ⟨-, rfl⟩ := Prod.mk.inj (List.mem_singleton.mp h)
      exact .refl
    | binary _ left _ right =>
      rcases List.mem_cons.mp h with heq | hright
      · obtain ⟨-, rfl⟩ := Prod.mk.inj heq
        exact .refl
      · split at hright
        · cases hright
        · obtain ⟨-, rfl⟩ := Prod.mk.inj (List.mem_singleton.mp hright)
          exact (left.keeps_eval env).writes
    | conditional _ condition consequence alternative =>
      rcases List.mem_cons.mp h with heq | hbranch
      · obtain ⟨-, rfl⟩ := Prod.mk.inj heq
        exact .refl
      · have henv : env' = (condition.eval env).2 := by
          split at hbranch
          · cases hbranch
          · split at hbranch
            · exact (Prod.mk.inj (List.mem_singleton.mp hbranch)).2
            · obtain ⟨b, -, heq⟩ := List.mem_map.mp hbranch
              exact (Prod.mk.inj heq).2.symm
        rw [henv]
        exact (condition.keeps_eval env).writes

theorem Makes.writes (h : Makes node env inner env') :
    env.Writes (fun _ v => v.IsPlain) env' := by
  induction h with
  | self => exact .refl
  | part _ hmem ih => exact ih.trans (writes_of_mem_parts hmem)

/-- Wherever in an evaluation a value is returned, it is a plain one. -/
theorem Makes.isPlain_of_returned (h : Makes node env inner env') (hplain : env.IsPlain) {v : Value}
    (hv : (inner.eval env').1 = some (.returned v)) : v.IsPlain :=
  (inner.keeps_eval env').unnested (h.writes.isPlain hplain) _ hv

/-! ## Evaluations in a row -/

/-- One of several evaluations in a row. -/
structure Step where
  node : Node
  before : Env
  outcome : Option Value
  after : Env

/-- Evaluates trees one after the other, each in the environment the one before it has left. -/
def steps : List Node → Env → List Step
  | [], _ => []
  | node :: rest, env =>
    ⟨node, env, (node.eval env).1, (node.eval env).2⟩ :: steps rest (node.eval env).2

/-- A step is an evaluation, and starts in a plain environment if the first one does. -/
theorem eval_of_mem_steps (nodes : List Node) {env : Env} (hplain : env.IsPlain)
    {step : Step} (h : step ∈ steps nodes env) :
    step.before.IsPlain ∧ step.node.eval step.before = (step.outcome, step.after) := by
  induction nodes generalizing env with
  | nil => cases h
  | cons node rest ih =>
    rcases List.mem_cons.mp h with rfl | hrest
    · exact ⟨hplain, rfl⟩
    · exact ih ((node.keeps_eval env).writes.isPlain hplain) hrest

/-- **Carriers neither nest, nor are stored, nor escape.** Evaluations in a row that start with
plain bindings leave plain bindings after every step; a value that is returned anywhere inside a
step is plain, and a step that is a program does not yield a returned value. Whatever the bindings
are, only plain values are written, so a name that is bound to something else afterwards is bound
to a plain value. -/
theorem carriers_confined :
    Env.empty.IsPlain ∧
    (∀ (nodes : List Node) (env : Env), env.IsPlain → ∀ step ∈ steps nodes env,
      step.after.IsPlain ∧
      (∀ p v, step.node = .program p → step.outcome ≠ some (.returned v)) ∧
      ∀ (inner : Node) (env' : Env), Makes step.node step.before inner env' →
        ∀ v, (inner.eval env').1 = some (.returned v) → v.IsPlain) ∧
    ∀ (node : Node) (env : Env),
      env.Writes (fun _ v => v.IsPlain) (node.eval env).2 ∧
      ∀ name, (node.eval env).2.innermost.lookup name ≠ env.innermost.lookup name →
        ∃ v, (node.eval env).2.innermost.lookup name = some v ∧ v.IsPlain := by
  refine ⟨Env.isPlain_empty, fun nodes env hplain step hmem => ?_, fun node env => ?_⟩
  · obtain ⟨hbefore, heval⟩ := eval_of_mem_steps nodes hplain hmem
    have hkeeps := step.node.keeps_eval step.before
    rw [heval] at hkeeps
    refine ⟨hkeeps.writes.isPlain hbefore, ?_, fun inner env' hmakes v hv => ?_⟩
    · intro p v hp
      rw [hp] at heval
      have houtcome : (p.eval step.before).1 = step.outcome := congrArg Prod.fst heval
      rw [← houtcome]
      exact eval_program_ne_returned p hbefore v
    · exact hmakes.isPlain_of_returned hbefore hv
  · have hwrites := (node.keeps_eval env).writes
    exact ⟨hwrites, fun name => hwrites.allowed_of_lookup_ne⟩

/-- A result inside a result: `return if (a) { return a }`. -/
def resultInResult : Stmt :=
  .result ⟨.kwReturn, "return"⟩ (some (.conditional ⟨.kwIf, "if"⟩ (.reference ⟨⟨.ident, "a"⟩, "a"⟩)
    ⟨⟨.lbrace, "\x7b"⟩, [.result ⟨.kwReturn, "return"⟩ (some (.reference ⟨⟨.ident, "a"⟩, "a"⟩))]⟩ none))

/-- Bindings to a constant and to what another name is bound to: `{ let b = true; let c = a }`. -/
def twoBindings : Block :=
  ⟨⟨.lbrace, "\x7b"⟩,
    [.binding ⟨.kwLet, "let"⟩ ⟨⟨.ident, "b"⟩, "b"⟩ (some (.boolean ⟨.kwTrue, "true"⟩ true)),
      .binding ⟨.kwLet, "let"⟩ ⟨⟨.ident, "c"⟩, "c"⟩ (some (.reference ⟨⟨.ident, "a"⟩, "a"⟩))]⟩

/-- The outer of two results adds nothing, and where a name is bound to a carrier that carrier does
not reach another. -/
theorem carriers_confined_nested :
    (Env.empty.set "a" (.boolean true)).IsPlain ∧
    (resultInResult.eval (Env.empty.set "a" (.boolean true))).1 = some (.returned (.boolean true)) ∧
    (Value.boolean true).IsPlain ∧
    ((twoBindings.eval (Env.empty.set "a" (.returned .null))).2.get? "c") = none ∧
    ∃ v, (twoBindings.eval (Env.empty.set "a" (.returned .null))).2.innermost.lookup "b" = some v ∧
      v.IsPlain := by
  have hplain : (Env.empty.set "a" (.boolean true)).IsPlain := Env.isPlain_empty.set trivial
  have hreturned :
      (resultInResult.eval (Env.empty.set "a" (.boolean true))).1 =
        some (.returned (.boolean true)) := by
    decide +kernel
  obtain ⟨-, hrow, hany⟩ := carriers_confined
  refine ⟨hplain, hreturned, ?_, by decide +kernel, ?_⟩
  · exact (hrow [.statement resultInResult] _ hplain _ List.mem_cons_self).2.2 _ _ .self _ hreturned
  · exact (hany (.block twoBindings) _).2 "b" (by decide +kernel)

end Node

end Treewalk
