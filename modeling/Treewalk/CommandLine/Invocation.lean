/-!
# Invocations

What the arguments of the program ask for. Arguments are settled from left to right. An option is
written long (`--eval`) or as a letter (`-e`), letters can be put together (`-qe`), and a value is
attached (`--eval=1`, `-e1`, `-e=1`) or is the next argument, which then must not look like an
option. After `--` every argument is a file.

A request for the version or for help is granted as soon as it is reached. That a text and a file
exclude each other is looked at last.
-/

namespace Treewalk.CommandLine

/-- What is settled by the arguments. -/
structure Options where
  /-- The text to evaluate. -/
  source : Option String
  /-- The file to run. -/
  file : Option String
  /-- Whether the greeting is left out. -/
  quiet : Bool
deriving DecidableEq

/-- What the program is asked to do. -/
inductive Invocation where
  | run (options : Options)
  | version
  | help
deriving DecidableEq

/-- A cause for refusing the arguments. -/
inductive Misuse where
  | unknownOption (option : String)
  | missingValue (option : String)
  | unwantedValue (option : String)
  | repeated (option : String)
  | emptyFile
  | unexpectedFile (name : String)
  | sourceAndFile
deriving DecidableEq

namespace Misuse

/-- The wording of a misuse. -/
def message : Misuse → String
  | .unknownOption option => "unexpected argument '" ++ option ++ "' found"
  | .missingValue option => "a value is required for '" ++ option ++ "' but none was supplied"
  | .unwantedValue option => "unexpected value for '" ++ option ++ "' found; no more were expected"
  | .repeated option => "the argument '" ++ option ++ "' cannot be used multiple times"
  | .emptyFile => "a value is required for '[FILE]' but none was supplied"
  | .unexpectedFile name => "unexpected argument '" ++ name ++ "' found"
  | .sourceAndFile => "the argument '--eval <EVAL>' cannot be used with '[FILE]'"

/-- The exit status after a misuse. -/
def status : Nat := 2

end Misuse

namespace Options

/-- Nothing settled yet. -/
def initial : Options := ⟨none, none, false⟩

/-- Settles the text to evaluate. -/
def setSource (options : Options) (source : String) : Except Misuse Options :=
  if options.source.isSome then .error (.repeated "--eval <EVAL>")
  else .ok { options with source := some source }

/-- Settles that the greeting is left out. -/
def setQuiet (options : Options) : Except Misuse Options :=
  if options.quiet then .error (.repeated "--quiet") else .ok { options with quiet := true }

/-- Settles the file to run. -/
def setFile (options : Options) (name : String) : Except Misuse Options :=
  if options.file.isSome then .error (.unexpectedFile name)
  else if name = "" then .error .emptyFile
  else .ok { options with file := some name }

/-- The invocation, once all arguments are settled. -/
def finish (options : Options) : Except Misuse Invocation :=
  if options.source.isSome ∧ options.file.isSome then .error .sourceAndFile
  else .ok (.run options)

end Options

/-! ## Arguments -/

/-- The shape of an argument. -/
inductive Argument where
  /-- The mark after which there are only files. -/
  | escape
  /-- An option by its name, with a value if one is attached. -/
  | long (name : String) (value : Option String)
  /-- Options by their letters. -/
  | letters (letters : List Char)
  /-- Anything else, a single hyphen included. -/
  | plain (text : String)
deriving DecidableEq

/-- The shape of an argument. -/
def Argument.ofText (text : String) : Argument :=
  match text.toList with
  | ['-', '-'] => .escape
  | '-' :: '-' :: cs =>
    .long (String.ofList (cs.takeWhile (· ≠ '=')))
      (match cs.dropWhile (· ≠ '=') with
        | [] => none
        | _ :: value => some (String.ofList value))
  | '-' :: c :: cs => .letters (c :: cs)
  | _ => .plain text

/-- How far an argument settles things. -/
inductive Progress where
  /-- The next argument can be looked at. -/
  | settled (options : Options)
  /-- The next argument has to be the text to evaluate. -/
  | awaitingSource (options : Options)
  /-- The next arguments are all files. -/
  | onlyFiles (options : Options)
  /-- No more arguments are looked at. -/
  | granted (invocation : Invocation)
deriving DecidableEq

/-- Settles options given by their letters. -/
def settleLetters (options : Options) : List Char → Except Misuse Progress
  | [] => .ok (.settled options)
  | 'q' :: cs => options.setQuiet.bind fun options => settleLetters options cs
  | 'V' :: _ => .ok (.granted .version)
  | 'h' :: _ => .ok (.granted .help)
  | ['e'] => .ok (.awaitingSource options)
  | 'e' :: '=' :: cs => (options.setSource (String.ofList cs)).map .settled
  | 'e' :: cs => (options.setSource (String.ofList cs)).map .settled
  | c :: _ => .error (.unknownOption (String.ofList ['-', c]))

/-- Settles one argument. -/
def settle (options : Options) : Argument → Except Misuse Progress
  | .escape => .ok (.onlyFiles options)
  | .letters cs => settleLetters options cs
  | .plain text => (options.setFile text).map .settled
  | .long "eval" (some value) => (options.setSource value).map .settled
  | .long "eval" none => .ok (.awaitingSource options)
  | .long "quiet" none => options.setQuiet.map .settled
  | .long "version" none => .ok (.granted .version)
  | .long "help" none => .ok (.granted .help)
  | .long name value =>
    if value.isSome ∧ (name = "quiet" ∨ name = "version" ∨ name = "help") then
      .error (.unwantedValue ("--" ++ name))
    else .error (.unknownOption ("--" ++ name))

/-- Settles arguments that are all files. -/
def settleFiles (options : Options) : List String → Except Misuse Invocation
  | [] => options.finish
  | name :: rest => (options.setFile name).bind fun options => settleFiles options rest

/-- Settles arguments in order. -/
def settleAll (options : Options) : List String → Except Misuse Invocation
  | [] => options.finish
  | arg :: rest =>
    match settle options (.ofText arg) with
    | .error misuse => .error misuse
    | .ok (.granted invocation) => .ok invocation
    | .ok (.settled options) => settleAll options rest
    | .ok (.onlyFiles options) => settleFiles options rest
    | .ok (.awaitingSource options) =>
      match rest with
      | [] => .error (.missingValue "--eval <EVAL>")
      | value :: rest =>
        match Argument.ofText value with
        | .plain source => (options.setSource source).bind fun options => settleAll options rest
        | _ => .error (.missingValue "--eval <EVAL>")

/-- What the arguments ask for. -/
def Invocation.ofArguments (arguments : List String) : Except Misuse Invocation :=
  settleAll .initial arguments

end Treewalk.CommandLine
