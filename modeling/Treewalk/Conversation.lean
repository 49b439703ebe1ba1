import Treewalk.Session

/-!
# Conversations

A conversation takes bytes, a line at a time. Every line is a program of its own, and all lines
share one environment. Before each line, and before finding that there are no more, the prompt is
written; after it, the line's value, its diagnostics, or nothing.

A line ends at a line feed, and one carriage return before the line feed belongs to the line end.
What follows the last line feed is a line if there is anything at all. A line that is not UTF-8
text ends the conversation.
-/

namespace Treewalk.Conversation

/-- What is written before a line is awaited. -/
def prompt : String := ">> "

/-! ## Lines -/

/-- The byte that ends a line. -/
def lineFeed : UInt8 := 10

/-- The byte that may stand before a line feed. -/
def carriageReturn : UInt8 := 13

/-- A line without the carriage return at its end. -/
def dropReturn (line : List UInt8) : List UInt8 :=
  if line.getLast? = some carriageReturn then line.dropLast else line

/-- The lines of an input. -/
def lines (input : List UInt8) : List (List UInt8) :=
  if input = [] then []
  else
    match _h : input.dropWhile (· != lineFeed) with
    | [] => [input]
    | _ :: rest => dropReturn (input.takeWhile (· != lineFeed)) :: lines rest
termination_by input.length
decreasing_by
  have := (List.dropWhile_sublist (l := input) (· != lineFeed)).length_le
  rw [_h, List.length_cons] at this
  exact this

/-- The text of a line, if it is UTF-8. -/
def decode? (line : List UInt8) : Option String := String.fromUTF8? line.toByteArray

/-! ## Answers -/

/-- What is written in answer to a line, and the environment after it. -/
def reply (line : String) (env : Env) : String × Env :=
  match evaluate line env with
  | .ok (some value, env) => (value.text ++ "\n", env)
  | .ok (none, env) => ("", env)
  | .error diagnostics => (Diagnostic.report diagnostics, env)

/-- How a conversation came to its end. -/
inductive Ending where
  /-- There were no more lines. -/
  | finished
  /-- A line was not text. -/
  | notText
deriving DecidableEq

/-- Why a line that is not text is refused. -/
def notTextMessage : String := "stream did not contain valid UTF-8"

/-- Everything written in a conversation, and how it ended. -/
structure Transcript where
  output : String
  ending : Ending
deriving DecidableEq

/-- Converses over lines, from an environment on. -/
def ofLines : List (List UInt8) → Env → Transcript
  | [], _ => ⟨prompt, .finished⟩
  | line :: rest, env =>
    match decode? line with
    | none => ⟨prompt, .notText⟩
    | some text =>
      let (answer, env) := reply text env
      let transcript := ofLines rest env
      { transcript with output := prompt ++ answer ++ transcript.output }

/-- Converses over an input, starting without bindings. -/
def ofInput (input : List UInt8) : Transcript := ofLines (lines input) .empty

end Treewalk.Conversation
