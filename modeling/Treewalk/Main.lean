import Treewalk.CommandLine.Run

/-!
# The program

Reads the arguments, does what they ask for, and exits with the status that follows. It has no
subscriber, so nothing is logged.
-/

namespace Treewalk.CommandLine

/-- Writes an outcome. -/
def Outcome.write (outcome : Outcome) : IO UInt32 := do
  IO.print outcome.stdout
  IO.eprint outcome.stderr
  return outcome.status.toUInt32

/-- Reads a file by its path. A directory can be opened and fails when it is read; a step that is no
directory fails already when the path is opened, which is when the failure names the path. -/
def readFile (path : String) : IO (Except ReadFailure (List UInt8)) := do
  try
    return .ok (← IO.FS.readBinFile path).toList
  catch
    | .noFileOrDirectory .. => return .error .missing
    | .inappropriateType none .. => return .error .isDirectory
    | .inappropriateType (some _) .. => return .error .notDirectory
    | .invalidArgument .. => return .error .nameTooLong
    | e => return .error (.other e.toString)

/-- Reads bytes up to and including a line feed, or to the end of input. -/
partial def readLine (input : IO.FS.Stream) (line : Array UInt8) : IO (Array UInt8) := do
  match (← input.read 1).toList with
  | [] => return line
  | byte :: _ =>
    if byte = Conversation.lineFeed then return line.push byte
    else readLine input (line.push byte)

/-- Converses until the input ends or is not text. -/
partial def converse (input output : IO.FS.Stream) (env : Env) : IO UInt32 := do
  output.putStr Conversation.prompt
  output.flush
  match Conversation.lines (← readLine input #[]).toList with
  | [] => return 0
  | line :: _ =>
    match Conversation.decode? line with
    | none =>
      IO.eprintln Conversation.notTextMessage
      return 1
    | some text =>
      let (answer, env) := Conversation.reply text env
      output.putStr answer
      converse input output env

/-- Does what an invocation asks for. -/
def perform : Invocation → IO UInt32
  | .version => (Outcome.success versionText).write
  | .help => (Outcome.success helpText).write
  | .run options => do
    match options.source, options.file with
    | some source, _ => (runSource source).write
    | none, some name => (runFile name (← readFile name)).write
    | none, none =>
      unless options.quiet do
        let user ← IO.getEnv "USER"
        let username ← IO.getEnv "USERNAME"
        IO.print (greeting (userName fun name => if name = "USER" then user else username))
      converse (← IO.getStdin) (← IO.getStdout) .empty

end Treewalk.CommandLine

/-- Runs the program with its arguments. -/
def main (arguments : List String) : IO UInt32 :=
  match Treewalk.CommandLine.Invocation.ofArguments arguments with
  | .ok invocation => Treewalk.CommandLine.perform invocation
  | .error misuse => do
    IO.eprintln ("error: " ++ misuse.message)
    return Treewalk.CommandLine.Misuse.status.toUInt32
