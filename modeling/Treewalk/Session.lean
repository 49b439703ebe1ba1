import Treewalk.Parser
import Treewalk.Tree.Equality
import Treewalk.Tree.Render
import Treewalk.Eval

/-!
# Sessions

Source texts evaluated one after the other in one environment. A text that is rejected is not
evaluated at all. A session is driven by commands, each of which has a reply.
-/

namespace Treewalk

/-- Reads a source text and evaluates it, unless it is rejected. -/
def evaluate (source : String) (env : Env) : Except (List Diagnostic) (Option Value × Env) :=
  (Program.ofSource source).map fun program => program.eval env

/-- Are two outcomes of reading the same: the same tree, or the same diagnostics? -/
def Program.sameOutcome : Except (List Diagnostic) Program → Except (List Diagnostic) Program → Bool
  | .ok a, .ok b => a = b
  | .error a, .error b => a = b
  | _, _ => false

/-- Are two outcomes of reading rendered the same? Only accepted texts are rendered. -/
def Program.sameRendering :
    Except (List Diagnostic) Program → Except (List Diagnostic) Program → Option Bool
  | .ok a, .ok b => some (a.render = b.render)
  | _, _ => none

namespace Session

/-- What a session can be asked to do. -/
inductive Command where
  /-- Evaluate a text as a program. -/
  | evaluate (source : String)
  /-- Evaluate each statement of a text on its own. -/
  | each (source : String)
  | get (name : String)
  | set (name : String) (value : Value)
  | enter
  | leave
deriving DecidableEq

/-- What a session answers. -/
inductive Reply where
  | result (value : Option Value)
  | results (values : List (Option Value))
  | rejected (diagnostics : List Diagnostic)
  | entered
  | left
deriving DecidableEq

/-- Obeys a command. -/
def obey (env : Env) : Command → Reply × Env
  | .evaluate source =>
    match Treewalk.evaluate source env with
    | .ok (value, env) => (.result value, env)
    | .error diagnostics => (.rejected diagnostics, env)
  | .each source =>
    match Program.ofSource source with
    | .ok program =>
      let (values, env) := Stmt.evalEach program.statements env
      (.results values, env)
    | .error diagnostics => (.rejected diagnostics, env)
  | .get name => (.result (env.get? name), env)
  | .set name value => (.result (some value), env.set name value)
  | .enter => (.entered, env.enter)
  | .leave => (.left, env.leave)

/-- Obeys commands in order: their replies, and the environment after the last one. -/
def obeyAll : Env → List Command → List Reply × Env
  | env, [] => ([], env)
  | env, command :: rest =>
    let (reply, env) := obey env command
    let (replies, env) := obeyAll env rest
    (reply :: replies, env)

end Session

end Treewalk
