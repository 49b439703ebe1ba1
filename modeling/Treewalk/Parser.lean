import Treewalk.Reader
import Treewalk.Token.Scan

/-!
# Parsers

A parser is a supply of tokens being read: the rules in force, the position, how many tokens have
been pulled from the supply, and the diagnostics so far. It looks one token beyond the current
one, so a new parser has pulled two, and every move pulls one more, past the end too.

A parser is driven by commands, each of which has a reply.
-/

namespace Treewalk

/-- A supply of tokens in the course of being read. -/
structure Parser where
  rules : Rules
  /-- The tokens from the current one on. -/
  ahead : List Token
  /-- How many tokens have been pulled from the supply. -/
  pulled : Nat
  diagnostics : List Diagnostic

namespace Parser

/-- A parser at the start of a supply, with the rules of the language. -/
def ofTokens (supply : List Token) : Parser := ⟨.standard, supply, 2, []⟩

/-- A parser at the start of a source text. -/
def ofSource (source : String) : Parser := ofTokens (Token.ofSource source)

/-- The token the parser stands on. -/
def current (parser : Parser) : Token := Token.next parser.ahead

/-- The parser after a reading from where it stands. -/
def settle {α : Type} (parser : Parser) (r : Reading α) : Parser :=
  { parser with
    ahead := parser.ahead.drop r.moves
    pulled := parser.pulled + r.moves
    diagnostics := parser.diagnostics ++ r.diagnostics }

/-- Reads statements up to the end of input. -/
def program (parser : Parser) : Program × Parser :=
  let r := parser.rules.readProgram parser.ahead
  (⟨r.value⟩, parser.settle r)

/-- Reads an expression whose operators all bind tighter than `floor`. -/
def expression (floor : Strength) (parser : Parser) : Option Expr × Parser :=
  let r := parser.rules.readExpr floor parser.ahead
  (r.value, parser.settle r)

/-! ## Commands -/

/-- What a parser can be asked to do. -/
inductive Command where
  | program
  | expression (floor : Strength)
  | registerOpening (kind : Token.Kind) (opening : Opening)
  | registerJoining (kind : Token.Kind) (joining : Joining)
deriving DecidableEq

/-- What a parser answers. -/
inductive Reply where
  | program (program : Program)
  | expression (expression : Option Expr)
  | registered

/-- Obeys a command. -/
def obey (parser : Parser) : Command → Reply × Parser
  | .program => (.program parser.program.1, parser.program.2)
  | .expression floor => (.expression (parser.expression floor).1, (parser.expression floor).2)
  | .registerOpening kind opening =>
    (.registered, { parser with rules := parser.rules.registerOpening kind opening })
  | .registerJoining kind joining =>
    (.registered, { parser with rules := parser.rules.registerJoining kind joining })

/-- Obeys commands in order: each reply with the parser as it then stood. -/
def obeyAll (parser : Parser) : List Command → List (Reply × Parser)
  | [] => []
  | command :: rest => parser.obey command :: (parser.obey command).2.obeyAll rest

/-- The parser after commands obeyed in order. -/
def after (parser : Parser) (commands : List Command) : Parser :=
  commands.foldl (fun p command => (p.obey command).2) parser

end Parser

/-- Reads a source text as a program, and rejects it if there is any diagnostic. -/
def Program.ofSource (source : String) : Except (List Diagnostic) Program :=
  let (program, parser) := (Parser.ofSource source).program
  if parser.diagnostics = [] then .ok program else .error parser.diagnostics

end Treewalk
