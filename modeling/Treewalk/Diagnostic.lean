import Treewalk.Token

/-!
# Diagnostics

What can be wrong with a source text. A diagnostic is a cause; its wording is `message`, and
`report` is the wording of all diagnostics of one text.
-/

namespace Treewalk

/-- A cause for rejecting a source text. -/
inductive Diagnostic where
  /-- One kind of token was required and another stood there. -/
  | unexpected (expected found : Token.Kind)
  /-- No expression opens with this kind of token. -/
  | noOpening (kind : Token.Kind)
  /-- A numeral that is not a 64-bit integer. -/
  | invalidInteger (literal : String)
deriving DecidableEq

namespace Diagnostic

/-- The wording of a diagnostic. -/
def message : Diagnostic → String
  | .unexpected expected found =>
    "expected next token to be " ++ expected.name ++ ", got " ++ found.name ++ " instead"
  | .noOpening kind => "no prefix parse function for " ++ kind.name ++ " found"
  | .invalidInteger literal => "could not parse \"" ++ literal ++ "\" as integer"

/-- The wording of a list of diagnostics: a heading, then one indented line for each. -/
def report (diagnostics : List Diagnostic) : String :=
  " parser errors:\n" ++ String.join (diagnostics.map fun d => "\t" ++ d.message ++ "\n")

end Diagnostic

end Treewalk
