import Treewalk.Proofs.Frame

/-!
# Levels of bindings are a stack of maps

Levels are entered and left, names are set, and trees are evaluated, in any order. What a name is
bound to then follows from the history alone, that is, from the writes and from where levels were
entered and left: it is what was written to the name last on the innermost level that has such a
write, among the levels that have not been left.

An evaluation contributes the bindings that are executed in its course (`written`), however it ends.
`Finds` is the rule by which a history is read, from its latest event backwards. `replay` links the
two: it makes an environment of a history, and every environment that is arrived at is made so.
-/

namespace Treewalk

/-! ## The bindings an evaluation executes -/

mutual

/-- The bindings executed by the evaluation of an expression, in their order, with their values. -/
def Expr.written : Expr → Env → List (String × Value)
  | .reference _, _ | .integer _ _, _ | .boolean _ _, _ => []
  | .unary _ _ operand, env => operand.written env
  | .binary _ left _ right, env =>
    left.written env ++
      if (left.eval env).1.isCarrier then [] else right.written (left.eval env).2
  | .conditional _ condition consequence alternative, env =>
    condition.written env ++
      if (condition.eval env).1.isCarrier then []
      else if (condition.eval env).1.isTruthy then consequence.written (condition.eval env).2
      else Block.writtenIfAny alternative (condition.eval env).2

/-- The bindings executed by the evaluation of a block. -/
def Block.written : Block → Env → List (String × Value)
  | ⟨_, statements⟩, env => Stmt.writtenAll statements env

/-- The bindings executed by the evaluation of a block, if there is one. -/
def Block.writtenIfAny : Option Block → Env → List (String × Value)
  | none, _ => []
  | some body, env => body.written env

/-- The bindings executed by the evaluation of a statement. A binding comes after those that are
executed by its own value, and is not executed if that is a carrier. -/
def Stmt.written : Stmt → Env → List (String × Value)
  | .binding _ name value, env =>
    Expr.writtenIfAny value env ++
      if (Expr.evalIfAny value env).1.isCarrier then []
      else [(name.value, (Expr.evalIfAny value env).1)]
  | .result _ value, env => Expr.writtenIfAny value env
  | .expression _ value, env => value.written env
  | .block body, env => body.written env

/-- The bindings executed by the evaluation of an expression, if there is one. -/
def Expr.writtenIfAny : Option Expr → Env → List (String × Value)
  | none, _ => []
  | some value, env => value.written env

/-- The bindings executed by a run of statements, up to the first carrier. -/
def Stmt.writtenAll : List Stmt → Env → List (String × Value)
  | [], _ => []
  | statement :: rest, env =>
    statement.written env ++
      if (statement.eval env).1.any Value.isCarrier then []
      else Stmt.writtenAll rest (statement.eval env).2

end

/-- The bindings executed by the evaluation of a tree. -/
def Node.written : Node → Env → List (String × Value)
  | .program p, env => Stmt.writtenAll p.statements env
  | .block b, env => b.written env
  | .statement s, env => s.written env
  | .expression e, env => e.written env

theorem Env.setAll_append (env : Env) (first second : List (String × Value)) :
    env.setAll (first ++ second) = (env.setAll first).setAll second :=
  List.foldl_append

mutual

theorem Expr.eval_eq_setAll : ∀ (e : Expr) (env : Env), (e.eval env).2 = env.setAll (e.written env)
  | .reference _, _ | .integer _ _, _ | .boolean _ _, _ => rfl
  | .unary token op operand, env => by
    have h := operand.eval_eq_setAll env
    rw [Expr.eval_unary, Expr.written]
    split
    · exact h
    · exact h
  | .binary token left op right, env => by
    have hleft := left.eval_eq_setAll env
    have hright := right.eval_eq_setAll (left.eval env).2
    rw [Expr.eval_binary, Expr.written, Env.setAll_append, ← hleft]
    split
    · rfl
    · split
      · exact hright
      · exact hright
  | .conditional token condition consequence alternative, env => by
    have hcondition := condition.eval_eq_setAll env
    rw [Expr.eval_conditional, Expr.written, Env.setAll_append, ← hcondition]
    split
    · rfl
    · split
      · exact consequence.eval_eq_setAll _
      · exact Block.evalIfAny_eq_setAll alternative _

theorem Block.eval_eq_setAll : ∀ (b : Block) (env : Env),
    (b.eval env).2 = env.setAll (b.written env)
  | ⟨_, statements⟩, env => Stmt.evalAll_eq_setAll statements none env

theorem Block.evalIfAny_eq_setAll : ∀ (b : Option Block) (env : Env),
    (Block.evalIfAny b env).2 = env.setAll (Block.writtenIfAny b env)
  | none, _ => rfl
  | some b, env => b.eval_eq_setAll env

theorem Stmt.eval_eq_setAll : ∀ (s : Stmt) (env : Env), (s.eval env).2 = env.setAll (s.written env)
  | .binding token name value, env => by
    have h := Expr.evalIfAny_eq_setAll value env
    rw [Stmt.eval_binding, Stmt.written, Env.setAll_append, ← h]
    split
    · rfl
    · rfl
  | .result token value, env => by
    have h := Expr.evalIfAny_eq_setAll value env
    rw [Stmt.eval_result, Stmt.written]
    split
    · exact h
    · exact h
  | .expression _ value, env => value.eval_eq_setAll env
  | .block body, env => body.eval_eq_setAll env

theorem Expr.evalIfAny_eq_setAll : ∀ (e : Option Expr) (env : Env),
    (Expr.evalIfAny e env).2 = env.setAll (Expr.writtenIfAny e env)
  | none, _ => rfl
  | some e, env => e.eval_eq_setAll env

theorem Stmt.evalAll_eq_setAll : ∀ (statements : List Stmt) (last : Option Value) (env : Env),
    (Stmt.evalAll last statements env).2 = env.setAll (Stmt.writtenAll statements env)
  | [], _, _ => rfl
  | statement :: rest, last, env => by
    have hfirst := statement.eval_eq_setAll env
    rw [Stmt.evalAll_cons, Stmt.writtenAll, Env.setAll_append, ← hfirst]
    split
    · rfl
    · exact Stmt.evalAll_eq_setAll rest _ _

end

/-- **An evaluation binds what its executed bindings say**, in their order. -/
theorem Node.eval_eq_setAll (node : Node) (env : Env) :
    (node.eval env).2 = env.setAll (node.written env) := by
  cases node with
  | program p => exact Stmt.evalAll_eq_setAll p.statements none env
  | block b => exact b.eval_eq_setAll env
  | statement s => exact s.eval_eq_setAll env
  | expression e => exact e.eval_eq_setAll env

namespace Env

/-! ## Actions and their history -/

/-- What can be done with an environment. -/
inductive Action where
  | enter
  | set (name : String) (value : Value)
  | evaluate (node : Node)
  | leave

/-- What can happen to an environment. -/
inductive Event where
  | entered
  | wrote (name : String) (value : Value)
  | left

/-- Does an action. -/
def Action.perform : Action → Env → Env
  | .enter, env => env.enter
  | .set name value, env => env.set name value
  | .evaluate node, env => (node.eval env).2
  | .leave, env => env.leave

/-- The events of an action, latest first. -/
def Action.events : Action → Env → List Event
  | .enter, _ => [.entered]
  | .set name value, _ => [.wrote name value]
  | .evaluate node, env =>
    ((node.written env).map fun binding => .wrote binding.1 binding.2).reverse
  | .leave, _ => [.left]

/-- Does actions in order. -/
def after : List Action → Env → Env
  | [], env => env
  | action :: rest, env => after rest (action.perform env)

/-- The events of actions in order, latest first. -/
def history : List Action → Env → List Event
  | [], _ => []
  | action :: rest, env => history rest (action.perform env) ++ action.events env

/-- A list in which everything that is opened is closed again. -/
inductive Balanced {α : Type} (opening closing : α) : List α → Prop
  | nil : Balanced opening closing []
  | plain {a : α} {rest : List α} : a ≠ opening → a ≠ closing → Balanced opening closing rest →
      Balanced opening closing (a :: rest)
  | nested {inner rest : List α} : Balanced opening closing inner →
      Balanced opening closing rest → Balanced opening closing (opening :: inner ++ closing :: rest)

/-- The value of a name by a history, latest event first: what was written to it last on the
innermost level with such a write, among the levels that have not been left. -/
inductive Finds (name : String) : List Event → Value → Prop
  /-- It was written to the name just now. -/
  | latest {past : List Event} {v : Value} : Finds name (.wrote name v :: past) v
  /-- A write to another name does not count. -/
  | other {past : List Event} {v w : Value} {other : String} : other ≠ name →
      Finds name past v → Finds name (.wrote other w :: past) v
  /-- On a level without a write to the name, it is the value on the levels around. -/
  | outward {past : List Event} {v : Value} : Finds name past v → Finds name (.entered :: past) v
  /-- A level that was left does not count, nor do those that were entered and left on it. -/
  | closed {inner past : List Event} {v : Value} : Balanced .left .entered inner →
      Finds name past v → Finds name (.left :: inner ++ .entered :: past) v

/-! ## Histories as environments -/

/-- The environment that a history makes, latest event first. -/
def replay : List Event → Env
  | [] => empty
  | .entered :: past => (replay past).enter
  | .wrote name value :: past => (replay past).set name value
  | .left :: past => (replay past).leave

theorem replay_wrote_append (past : List Event) (bindings : List (String × Value)) :
    replay ((bindings.map fun binding => .wrote binding.1 binding.2).reverse ++ past) =
      (replay past).setAll bindings := by
  induction bindings generalizing past with
  | nil => rfl
  | cons binding rest ih =>
    rw [List.map_cons, List.reverse_cons, List.append_assoc, List.singleton_append, ih]
    rfl

/-- **Events do what the action does.** -/
theorem replay_events (action : Action) (past : List Event) :
    replay (action.events (replay past) ++ past) = action.perform (replay past) := by
  cases action with
  | enter | set _ _ | leave => rfl
  | evaluate node =>
    rw [Action.events, replay_wrote_append, Action.perform, node.eval_eq_setAll]

/-- So actions lead to what their history makes. -/
theorem after_replay (actions : List Action) (past : List Event) :
    after actions (replay past) = replay (history actions (replay past) ++ past) := by
  induction actions generalizing past with
  | nil => rfl
  | cons action rest ih =>
    have hperform := replay_events action past
    rw [after, history, List.append_assoc, ← hperform, ih]

/-! ## Levels that are left -/

/-- Leaving a level leads back to those around it, whatever it had. -/
theorem leave_of_enclosing_eq {env inner : Env} (h : inner.enclosing = env.levels) :
    inner.leave = env := by
  rw [leave, h]
  rfl

/-- Where levels are left that were entered, the levels around stay as they are. -/
theorem enclosing_replay_append {events : List Event} (h : Balanced .left .entered events)
    (past : List Event) : (replay (events ++ past)).enclosing = (replay past).enclosing := by
  induction h generalizing past with
  | nil => rfl
  | @plain event rest hleft hentered _ ih =>
    cases event with
    | entered => exact absurd rfl hentered
    | left => exact absurd rfl hleft
    | wrote _ _ => exact ih past
  | @nested inner rest _ _ ihinner ihrest =>
    have hinner := ihinner (.entered :: (rest ++ past))
    have hleave : (replay (inner ++ .entered :: (rest ++ past))).leave = replay (rest ++ past) :=
      leave_of_enclosing_eq hinner
    rw [List.append_assoc, List.cons_append, List.cons_append, replay, hleave, ihrest]

/-- **A level that was left has never been.** -/
theorem replay_closed {inner : List Event} (h : Balanced .left .entered inner)
    (past : List Event) : replay (.left :: inner ++ .entered :: past) = replay past :=
  leave_of_enclosing_eq (enclosing_replay_append h (.entered :: past))

/-- In front of the events on the innermost level it was entered, unless it is the only one. -/
theorem exists_entered_or_enclosing_eq_nil : ∀ events : List Event,
    (∃ inner past, events = inner ++ .entered :: past ∧ Balanced .left .entered inner) ∨
      (replay events).enclosing = []
  | [] => .inr rfl
  | .entered :: past => .inl ⟨[], past, rfl, .nil⟩
  | .wrote name value :: past => by
    rcases exists_entered_or_enclosing_eq_nil past with ⟨inner, outer, rfl, hinner⟩ | hnil
    · exact .inl ⟨.wrote name value :: inner, outer, rfl, .plain nofun nofun hinner⟩
    · exact .inr hnil
  | .left :: past => by
    rcases exists_entered_or_enclosing_eq_nil past with ⟨inner, outer, hpast, hinner⟩ | hnil
    · -- the level that was left is skipped, and the one around it is looked into
      have hlength : outer.length < past.length + 1 := by
        rw [hpast, List.length_append, List.length_cons]
        omega
      rcases exists_entered_or_enclosing_eq_nil outer with ⟨inner', outer', houter, hinner'⟩ | hnil
      · refine .inl ⟨.left :: inner ++ .entered :: inner', outer', ?_, .nested hinner hinner'⟩
        rw [hpast, houter, List.append_assoc, List.cons_append, List.cons_append]
      · refine .inr ?_
        rw [hpast, ← List.cons_append, replay_closed hinner, hnil]
    · refine .inr ?_
      rw [replay, leave, hnil]
      rfl
termination_by events => events.length

/-! ## Lookups -/

theorem get?_replay_of_finds {name : String} {events : List Event} {v : Value}
    (h : Finds name events v) : (replay events).get? name = some v := by
  induction h with
  | latest => rw [replay, get?_set, if_pos rfl]
  | other hne _ ih => rw [replay, get?_set, if_neg hne.symm, ih]
  | outward _ ih => rw [replay, get?_enter, ih]
  | closed hinner _ ih => rw [replay_closed hinner, ih]

theorem finds_of_get?_replay {name : String} {v : Value} : ∀ events : List Event,
    (replay events).get? name = some v → Finds name events v
  | [], h => nomatch h
  | .entered :: past, h => .outward (finds_of_get?_replay past h)
  | .wrote other w :: past, h => by
    rw [replay, get?_set] at h
    split at h
    · rename_i heq
      rw [← heq, Option.some.inj h]
      exact .latest
    · rename_i hne
      exact .other (Ne.symm hne) (finds_of_get?_replay past h)
  | .left :: past, h => by
    rcases exists_entered_or_enclosing_eq_nil past with ⟨inner, outer, hpast, hinner⟩ | hnil
    · have hlength : outer.length < past.length + 1 := by
        rw [hpast, List.length_append, List.length_cons]
        omega
      rw [hpast, ← List.cons_append, replay_closed hinner] at h
      rw [hpast]
      exact .closed hinner (finds_of_get?_replay outer h)
    · -- the last level was left, so there is nothing to be found
      rw [replay, leave, hnil] at h
      cases h
termination_by events => events.length

/-- **A history makes the environment that answers by it.** -/
theorem get?_replay_eq_some_iff {name : String} {events : List Event} {v : Value} :
    (replay events).get? name = some v ↔ Finds name events v :=
  ⟨finds_of_get?_replay events, get?_replay_of_finds⟩

/-! ## Segments that enter and leave -/

theorem after_append (first second : List Action) (env : Env) :
    after (first ++ second) env = after second (after first env) := by
  induction first generalizing env with
  | nil => rfl
  | cons action rest ih => exact ih (action.perform env)

/-- Where levels are entered and left again, the levels around stay as they are. -/
theorem enclosing_after {actions : List Action} (h : Balanced .enter .leave actions) (env : Env) :
    (after actions env).enclosing = env.enclosing := by
  induction h generalizing env with
  | nil => rfl
  | @plain action rest henter hleave _ ih =>
    rw [after, ih]
    cases action with
    | enter => exact absurd rfl henter
    | leave => exact absurd rfl hleave
    | set _ _ => rfl
    | evaluate node => exact (node.eval_writes env).enclosing_eq
  | @nested inner rest _ _ ihinner ihrest =>
    have hleave : (after inner env.enter).leave = env := leave_of_enclosing_eq (ihinner env.enter)
    have hnested : after (.enter :: inner ++ .leave :: rest) env =
        after rest (after inner env.enter).leave := after_append inner (.leave :: rest) env.enter
    rw [hnested, hleave, ihrest]

/-- **Environments are stacks of maps.** After any actions, from no bindings on, a name has the
value that was written to it last on the innermost level with such a write, among those not left
since, whether it was set or a binding was executed in an evaluation; without such a write it has
none. And whatever is done on a level, further levels included that are entered and left, leaving it
again leads back to the environment in which it was entered. -/
theorem lookups_follow_history (actions : List Action) :
    (∀ name v, (after actions empty).get? name = some v ↔
      Finds name (history actions empty) v) ∧
    (∀ name, (after actions empty).get? name = none ↔
      ∀ v, ¬Finds name (history actions empty) v) ∧
    ∀ inner : List Action, Balanced .enter .leave inner → ∀ env : Env,
      after (.enter :: inner ++ [.leave]) env = env := by
  have hsome : ∀ name v, (after actions empty).get? name = some v ↔
      Finds name (history actions empty) v := by
    intro name v
    have hreplay : after actions empty = replay (history actions empty) := by
      have h := after_replay actions []
      rwa [List.append_nil] at h
    rw [hreplay, get?_replay_eq_some_iff]
  refine ⟨hsome, fun name => ?_, fun inner hinner env => ?_⟩
  · rw [Option.eq_none_iff_forall_ne_some]
    exact forall_congr' fun v => not_congr (hsome name v)
  · have hleave : (after inner env.enter).leave = env :=
      leave_of_enclosing_eq (enclosing_after hinner env.enter)
    exact (after_append inner [.leave] env.enter).trans hleave

/-- The program `let x = true; y; let x = false;`. -/
def cutShort : Program :=
  ⟨[.binding ⟨.kwLet, "let"⟩ ⟨⟨.ident, "x"⟩, "x"⟩ (some (.boolean ⟨.kwTrue, "true"⟩ true)),
    .expression ⟨.ident, "y"⟩ (.reference ⟨⟨.ident, "y"⟩, "y"⟩),
    .binding ⟨.kwLet, "let"⟩ ⟨⟨.ident, "x"⟩, "x"⟩ (some (.boolean ⟨.kwFalse, "false"⟩ false))]⟩

/-- Let `x` be set, a level be entered, and the program be evaluated there, which ends in a fault
with `x` bound. What is set on further levels that are left does not count. -/
theorem lookups_follow_history_of_fault :
    let inner : List Action := [.set "x" (.boolean false), .enter, .set "y" .null, .leave]
    let actions : List Action :=
      [.set "x" .null, .enter, .evaluate (.program cutShort)] ++ (.enter :: inner ++ [.leave])
    Balanced .enter .leave inner ∧
      ((after actions empty).get? "x" = some (.boolean true) ∧
        Finds "x" (history actions empty) (.boolean true)) ∧
      ((after actions empty).get? "y" = none ∧ ∀ v, ¬Finds "y" (history actions empty) v) ∧
      after (.enter :: inner ++ [.leave]) empty = empty := by
  intro inner actions
  have hset : Balanced .enter .leave [Action.set "y" .null] := .plain nofun nofun .nil
  have hinner : Balanced .enter .leave inner := .plain nofun nofun (.nested hset .nil)
  obtain ⟨hsome, hnone, hsegment⟩ := lookups_follow_history actions
  have hx : (after actions empty).get? "x" = some (.boolean true) := by decide
  have hy : (after actions empty).get? "y" = none := by decide
  exact ⟨hinner, ⟨hx, (hsome _ _).mp hx⟩, ⟨hy, (hnone _).mp hy⟩, hsegment inner hinner empty⟩

end Env

end Treewalk
