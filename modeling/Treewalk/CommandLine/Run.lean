import Treewalk.CommandLine.Directory
import Treewalk.CommandLine.Invocation
import Treewalk.Conversation

/-!
# Running an invocation

The program as a function: from its arguments and its surroundings to its exit status and what it
writes. A script writes its value to the standard output, and its error or its diagnostics to the
standard error; both of these fail. Without a script the program greets the user and converses.

The program announces what it does as events, and where the variable `RUST_LOG` is set it has a
subscriber write them down. What the subscriber makes of them is its own affair and a parameter
here: it writes to the standard error, it does so before the program writes there itself, and
nothing else depends on it.
-/

namespace Treewalk.CommandLine

/-- What the program leaves behind. -/
structure Outcome where
  status : Nat
  stdout : String
  stderr : String
deriving DecidableEq

namespace Outcome

/-- Success. -/
def success (stdout : String) : Outcome := ⟨0, stdout, ""⟩

/-- Failure. -/
def failure (stdout stderr : String) : Outcome := ⟨1, stdout, stderr⟩

/-- The same outcome with a log in front of all else on the standard error. -/
def logged (log : String) (outcome : Outcome) : Outcome :=
  { outcome with stderr := log ++ outcome.stderr }

@[simp] theorem logged_empty (outcome : Outcome) : outcome.logged "" = outcome := by
  rw [logged, String.empty_append]

end Outcome

/-- The name and version of the program. -/
def versionText : String := "monkey 0.1.0\n"

/-- How the program is used. -/
def helpText : String :=
  "A tree-walking interpreter for the Monkey programming language.\n\n" ++
  "Usage: monkey [OPTIONS] [FILE]\n\n" ++
  "Arguments:\n" ++
  "  [FILE]  Runs a script file instead of starting the interactive session\n\n" ++
  "Options:\n" ++
  "  -e, --eval <EVAL>  " ++
    "Evaluates the given source text instead of starting the interactive session\n" ++
  "  -q, --quiet        Skips the greeting printed when the interactive session starts\n" ++
  "  -h, --help         Print help\n" ++
  "  -V, --version      Print version\n"

/-- Runs a source text as a script. -/
def runSource (source : String) : Outcome :=
  match evaluate source .empty with
  | .ok (some value, _) =>
    if value.isError then .failure "" (value.text ++ "\n") else .success (value.text ++ "\n")
  | .ok (none, _) => .success ""
  | .error diagnostics => .failure "" (Diagnostic.report diagnostics)

/-- Runs a file, given what reading it gave. -/
def runFile (name : String) (content : Except ReadFailure (List UInt8)) : Outcome :=
  match content.bind fun bytes => (Conversation.decode? bytes).elim (.error .notText) .ok with
  | .ok source => runSource source
  | .error failure =>
    .failure "" ("Failed to read the input file '" ++ name ++ "': " ++ failure.reason ++ "\n")

/-- The greeting of a user. -/
def greeting (user : String) : String :=
  "Hello " ++ user ++ "! This is the Monkey programming language!\n" ++
  "Feel free to type in commands\n"

/-- The user's name: the first of the two variables that is set, even to nothing. -/
def userName (setting : String → Option String) : String :=
  ((setting "USER").orElse fun _ => setting "USERNAME").getD "friend"

/-- Converses over an input, after `opening` has been written. -/
def runConversation (opening : String) (input : List UInt8) : Outcome :=
  let transcript := Conversation.ofInput input
  match transcript.ending with
  | .finished => .success (opening ++ transcript.output)
  | .notText => .failure (opening ++ transcript.output) (Conversation.notTextMessage ++ "\n")

/-- What the program finds around it. -/
structure Surroundings where
  directory : Directory
  input : List UInt8
  setting : String → Option String

/-- What is logged of a run: nothing, unless `RUST_LOG` is set. Then its text is the filter that the
subscriber is given. -/
def Surroundings.log (surroundings : Surroundings) (subscriber : String → String) : String :=
  (surroundings.setting "RUST_LOG").elim "" subscriber

theorem Surroundings.log_of_unset {surroundings : Surroundings}
    (h : surroundings.setting "RUST_LOG" = none) (subscriber : String → String) :
    surroundings.log subscriber = "" := by
  rw [log, h, Option.elim_none]

/-- Does what an invocation asks for. -/
def Invocation.outcome (surroundings : Surroundings) : Invocation → Outcome
  | .version => .success versionText
  | .help => .success helpText
  | .run options =>
    match options.source, options.file with
    | some source, _ => runSource source
    | none, some name => runFile name (surroundings.directory.read name)
    | none, none =>
      let opening := if options.quiet then "" else greeting (userName surroundings.setting)
      runConversation opening surroundings.input

/-- Runs the program. `subscriber` is what a subscriber with a given filter writes about this run;
if left out, it writes nothing. -/
def run (arguments : List String) (surroundings : Surroundings)
    (subscriber : String → String := fun _ => "") : Except Misuse Outcome :=
  (Invocation.ofArguments arguments).map fun invocation =>
    (invocation.outcome surroundings).logged (surroundings.log subscriber)

end Treewalk.CommandLine
