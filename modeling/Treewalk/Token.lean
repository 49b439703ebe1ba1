/-!
# Tokens

A token is a kind and the text it was cut from. Kinds have a display name, which diagnostics
quote: the glyph itself for operators and delimiters, a word in capitals for the rest.

A supply of tokens is a list that never runs dry: past its end every pull answers the
end-of-input token.
-/

namespace Treewalk

namespace Token

/-- What a token is. Names that start with `kw` are the reserved words. -/
inductive Kind where
  | eof
  | illegal
  | ident
  | int
  | assign
  | plus
  | minus
  | bang
  | asterisk
  | slash
  | lt
  | gt
  | eq
  | notEq
  | comma
  | semicolon
  | lparen
  | rparen
  | lbrace
  | rbrace
  | kwFn
  | kwLet
  | kwTrue
  | kwFalse
  | kwIf
  | kwElse
  | kwReturn
  | comment
deriving DecidableEq

/-- The name under which diagnostics mention a kind. -/
def Kind.name : Kind → String
  | .eof => "EOF"
  | .illegal => "ILLEGAL"
  | .ident => "IDENT"
  | .int => "INT"
  | .assign => "="
  | .plus => "+"
  | .minus => "-"
  | .bang => "!"
  | .asterisk => "*"
  | .slash => "/"
  | .lt => "<"
  | .gt => ">"
  | .eq => "=="
  | .notEq => "!="
  | .comma => ","
  | .semicolon => ";"
  | .lparen => "("
  | .rparen => ")"
  | .lbrace => "\x7b"
  | .rbrace => "\x7d"
  | .kwFn => "FUNCTION"
  | .kwLet => "LET"
  | .kwTrue => "TRUE"
  | .kwFalse => "FALSE"
  | .kwIf => "IF"
  | .kwElse => "ELSE"
  | .kwReturn => "RETURN"
  | .comment => "COMMENT"

end Token

/-- A piece of source text and what it is. -/
structure Token where
  kind : Token.Kind
  literal : String
deriving DecidableEq

namespace Token

/-- The end of input. -/
def eof : Token := ⟨.eof, ""⟩

/-- The token a supply answers next: its first one, and the end of input once it has run dry. -/
def next (supply : List Token) : Token := supply.headD eof

@[simp] theorem next_nil : next [] = eof := rfl

@[simp] theorem next_cons (t : Token) (rest : List Token) : next (t :: rest) = t := rfl

/-- A supply that may answer nothing: where it does, that is the end of input for one pull. -/
def supply (answers : List (Option Token)) : List Token :=
  answers.map fun answer => answer.getD eof

end Token

end Treewalk
