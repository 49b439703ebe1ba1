import Treewalk.Rules
import Treewalk.Reading

/-!
# Reading programs

The readers of expressions, blocks, statements and whole programs, under given rules. Every
reader that succeeds comes to rest on the last token of what it read, not after it; the reader
above it moves on.

A construct that cannot be read is given up where its fault was found, and its diagnostic is kept.
The statement around it is dropped, unless only the value of a binding or of a result is at fault:
then it stays without one. Reading goes on behind that place, so one text can have many
diagnostics, and reading always comes to an end.
-/

namespace Treewalk.Rules

mutual

/-- Reads an expression whose operators all bind tighter than `floor`. -/
def readExpr (rules : Rules) (floor : Strength) (ahead : List Token) : Reading (Option Expr) :=
  (rules.readOperand ahead).andThen fun left m => rules.readMore floor left (ahead.drop m)
termination_by 8 * ahead.length + 3
decreasing_by
  · omega
  · simp only [List.length_drop]; omega

/-- Reads the leftmost operand of an expression. At the end of input only an atom can be one. -/
def readOperand (rules : Rules) (ahead : List Token) : Reading (Option Expr) :=
  match ahead with
  | [] =>
    match rules.opening .eof with
    | some (.atom atom) => ⟨(atom.read .eof).1, 0, (atom.read .eof).2⟩
    | _ => .fail (.noOpening .eof)
  | t :: next =>
    match rules.opening t.kind with
    | none => .fail (.noOpening t.kind)
    | some (.atom atom) => ⟨(atom.read t).1, 0, (atom.read t).2⟩
    | some (.unary op) => ((rules.readExpr .unary next).shift 1).map (Option.map (.unary t op))
    | some .group => rules.readGroup next
    | some .conditional => rules.readConditional t next
termination_by 8 * ahead.length + 2
decreasing_by all_goals simp only [List.length_cons]; omega

/-- Reads on after an expression as long as the next token binds tighter than `floor`. The
expression's last token is the current one. -/
def readMore (rules : Rules) (floor : Strength) (left : Expr) (ahead : List Token) :
    Reading (Option Expr) :=
  match ahead with
  | _ :: t :: next =>
    if floor < t.kind.strength then
      match rules.joining t.kind with
      | none => .done (some left)
      | some joining =>
        ((rules.readJoined joining left t next).andThen fun whole m =>
          rules.readMore floor whole ((t :: next).drop m)).shift 1
    else .done (some left)
  | _ => .done (some left)
termination_by 8 * ahead.length + 1
decreasing_by all_goals simp only [List.length_drop, List.length_cons]; omega

/-- Joins an expression, over the token `t` behind it, to what follows. -/
def readJoined (rules : Rules) (joining : Joining) (left : Expr) (t : Token) (next : List Token) :
    Reading (Option Expr) :=
  match joining with
  | .binary op =>
    ((rules.readExpr t.kind.strength next).shift 1).map (Option.map (.binary t left op))
  | .keep => .done (some left)
  | .complement => .done (some (.unary t .not left))
  | .juxtapose => (rules.readExpr .call (t :: next)).map (Option.map (.binary t left .mul))
  | .refuse => .done none
termination_by 8 * next.length + 12
decreasing_by
  · omega
  · simp only [List.length_cons]; omega

/-- Reads an expression in parentheses. The opening one is current and `next` follows it. -/
def readGroup (rules : Rules) (next : List Token) : Reading (Option Expr) :=
  ((rules.readExpr .lowest next).shift 1).andThen fun value m =>
    (expect .rparen (next.drop m)).map (Option.map fun _ => value)
termination_by 8 * next.length + 4
decreasing_by all_goals omega

/-- Reads a choice. Its first token `t` is current and `next` follows it. -/
def readConditional (rules : Rules) (t : Token) (next : List Token) : Reading (Option Expr) :=
  (expect .lparen next).andThen fun _ _ =>
    (rules.readGroup (next.drop 1)).andThen fun condition m =>
      (rules.readBranch (next.drop (m + 1))).andThen fun consequence n =>
        if (Token.next (next.drop (m + n + 1))).kind = .kwElse then
          ((rules.readBranch (next.drop (m + n + 2))).shift 1).map
            (Option.map fun alternative => .conditional t condition consequence (some alternative))
        else .done (some (.conditional t condition consequence none))
termination_by 8 * next.length + 7
decreasing_by all_goals simp only [List.length_drop]; omega

/-- Reads a block that has to come next. -/
def readBranch (rules : Rules) (next : List Token) : Reading (Option Block) :=
  (expect .lbrace next).andThen fun brace _ =>
    ((rules.readBody (next.drop 1)).shift 1).map fun statements => some ⟨brace, statements⟩
termination_by 8 * next.length + 6
decreasing_by all_goals simp only [List.length_drop]; omega

/-- Reads statements up to a closing brace. Where the input ends first, the block keeps what was
read of it. -/
def readBody (rules : Rules) (ahead : List Token) : Reading (List Stmt) :=
  match ahead with
  | [] => ⟨[], 0, [.unexpected .rbrace .eof]⟩
  | t :: next =>
    if t.kind = .rbrace then .done []
    else if t.kind = .eof then ⟨[], 0, [.unexpected .rbrace .eof]⟩
    else (rules.readStmt t next).followedBy fun m => rules.readBody (next.drop m)
termination_by 8 * ahead.length + 5
decreasing_by all_goals simp only [List.length_drop, List.length_cons]; omega

/-- Reads a statement, with the semicolon behind it if there is one. -/
def readStmt (rules : Rules) (t : Token) (next : List Token) : Reading (Option Stmt) :=
  if t.kind = .kwLet then rules.readBinding t next
  else if t.kind = .kwReturn then rules.readResult t next
  else
    (rules.readExpr .lowest (t :: next)).andThen fun value m =>
      ⟨some (.expression t value), separator (next.drop m), []⟩
termination_by 8 * next.length + 12
decreasing_by
  · omega
  · omega
  · simp only [List.length_cons]; omega

/-- Reads a binding. It is kept even where its value could not be read. -/
def readBinding (rules : Rules) (t : Token) (next : List Token) : Reading (Option Stmt) :=
  (expect .ident next).andThen fun name _ =>
    (expect .assign (next.drop 1)).andThen fun _ _ =>
      let value := (rules.readExpr .lowest (next.drop 2)).shift 1
      ⟨some (.binding t (.ofToken name) value.value),
        value.moves + separator (next.drop (value.moves + 2)), value.diagnostics⟩
termination_by 8 * next.length + 8
decreasing_by all_goals simp only [List.length_drop]; omega

/-- Reads the end of a program. It has no value where a semicolon, a closing brace or the end of
input comes next, and it is kept even where its value could not be read. -/
def readResult (rules : Rules) (t : Token) (next : List Token) : Reading (Option Stmt) :=
  if (Token.next next).kind = .semicolon then ⟨some (.result t none), 1, []⟩
  else if (Token.next next).kind = .rbrace ∨ (Token.next next).kind = .eof then
    ⟨some (.result t none), 0, []⟩
  else
    let value := (rules.readExpr .lowest next).shift 1
    ⟨some (.result t value.value), value.moves + separator (next.drop value.moves),
      value.diagnostics⟩
termination_by 8 * next.length + 8
decreasing_by all_goals omega

end

/-- Reads statements up to the end of input, and comes to rest on it. -/
def readProgram (rules : Rules) (ahead : List Token) : Reading (List Stmt) :=
  match ahead with
  | [] => .done []
  | t :: next =>
    if t.kind = .eof then .done []
    else (rules.readStmt t next).followedBy fun m => rules.readProgram (next.drop m)
termination_by ahead.length
decreasing_by simp only [List.length_drop, List.length_cons]; omega

end Treewalk.Rules
