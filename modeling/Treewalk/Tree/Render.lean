import Treewalk.Tree

/-!
# Rendering

A tree as text. Every application is put in parentheses, so the text shows how operators were
grouped. Literals are written as their tokens were.
-/

namespace Treewalk

mutual

/-- An expression as text. -/
def Expr.render : Expr → String
  | .reference name => name.value
  | .integer token _ => token.literal
  | .boolean token _ => token.literal
  | .unary _ op operand => "(" ++ op.symbol ++ operand.render ++ ")"
  | .binary _ left op right => "(" ++ left.render ++ " " ++ op.symbol ++ " " ++ right.render ++ ")"
  | .conditional _ condition consequence alternative =>
    "if" ++ condition.render ++ " " ++ consequence.render ++ Block.renderElse alternative

/-- The `else` part of a choice, empty where there is none. -/
def Block.renderElse : Option Block → String
  | none => ""
  | some body => "else " ++ body.render

/-- A block as text: its statements one after the other. -/
def Block.render : Block → String
  | ⟨_, statements⟩ => Stmt.renderAll statements

/-- A statement as text. -/
def Stmt.render : Stmt → String
  | .binding token name value =>
    token.literal ++ " " ++ name.value ++ " = " ++ Expr.renderIfAny "" value ++ ";"
  | .result token value => token.literal ++ Expr.renderIfAny " " value ++ ";"
  | .expression _ value => value.render
  | .block body => body.render

/-- An expression after `gap`, or nothing at all. -/
def Expr.renderIfAny (gap : String) : Option Expr → String
  | none => ""
  | some value => gap ++ value.render

/-- Statements one after the other. -/
def Stmt.renderAll : List Stmt → String
  | [] => ""
  | statement :: rest => statement.render ++ Stmt.renderAll rest

end

/-- A program as text. -/
def Program.render (program : Program) : String := Stmt.renderAll program.statements

end Treewalk
