import Treewalk.Token

/-!
# Cutting text into tokens

Scanning takes the longest token at every position. Blanks and comments separate tokens and
yield none; a comment runs from `//` to the end of its line. A character that starts no token
is a token of kind `illegal` by itself, so scanning never fails and never loses text.
-/

namespace Treewalk.Token

/-- Blanks: space, tab, the two line ends, form feed and vertical tab. -/
def isBlank (c : Char) : Bool :=
  c == ' ' || c == '\t' || c == '\n' || c == '\r' || c == '\x0c' || c == '\x0b'

/-- The characters that end a comment. -/
def isLineEnd (c : Char) : Bool := c == '\n' || c == '\r'

/-- The characters of a name: ASCII letters and the underscore. -/
def isNameChar (c : Char) : Bool := c.isAlpha || c == '_'

/-- The reserved words. -/
def keywords : List (String × Kind) :=
  [("fn", .kwFn), ("let", .kwLet), ("true", .kwTrue), ("false", .kwFalse), ("if", .kwIf),
    ("else", .kwElse), ("return", .kwReturn)]

/-- A word is a reserved word or a name. -/
def Kind.ofWord (word : String) : Kind := (keywords.lookup word).getD .ident

/-- The kind a single character spells. -/
def Kind.ofChar? : Char → Option Kind
  | '=' => some .assign
  | '+' => some .plus
  | '-' => some .minus
  | '!' => some .bang
  | '*' => some .asterisk
  | '/' => some .slash
  | '<' => some .lt
  | '>' => some .gt
  | ',' => some .comma
  | ';' => some .semicolon
  | '(' => some .lparen
  | ')' => some .rparen
  | '\x7b' => some .lbrace
  | '\x7d' => some .rbrace
  | _ => none

/-- A word: the longest run of name characters from `c` on, and what follows it. -/
def word (c : Char) (cs : List Char) : Token × List Char :=
  let spelling := String.ofList (c :: cs.takeWhile isNameChar)
  (⟨.ofWord spelling, spelling⟩, cs.dropWhile isNameChar)

/-- A numeral: the longest run of digits from `c` on, and what follows it. -/
def numeral (c : Char) (cs : List Char) : Token × List Char :=
  (⟨.int, String.ofList (c :: cs.takeWhile Char.isDigit)⟩, cs.dropWhile Char.isDigit)

/-- A glyph, two characters wide where those two spell a comparison, and what follows it. -/
def glyph : Char → List Char → Token × List Char
  | '=', '=' :: cs => (⟨.eq, "=="⟩, cs)
  | '!', '=' :: cs => (⟨.notEq, "!="⟩, cs)
  | c, cs => (⟨(Kind.ofChar? c).getD .illegal, String.ofList [c]⟩, cs)

/-- The longest token that starts with `c`, and the text after it. -/
def lexeme (c : Char) (cs : List Char) : Token × List Char :=
  if isNameChar c then word c cs
  else if c.isDigit then numeral c cs
  else glyph c cs

/-! ## A token takes at least its first character -/

theorem length_word_le (c : Char) (cs : List Char) : (word c cs).2.length ≤ cs.length :=
  (List.dropWhile_sublist _).length_le

theorem length_numeral_le (c : Char) (cs : List Char) : (numeral c cs).2.length ≤ cs.length :=
  (List.dropWhile_sublist _).length_le

theorem length_glyph_le (c : Char) (cs : List Char) : (glyph c cs).2.length ≤ cs.length := by
  unfold glyph
  split <;> simp

theorem length_lexeme_le (c : Char) (cs : List Char) : (lexeme c cs).2.length ≤ cs.length := by
  unfold lexeme
  split
  · exact length_word_le c cs
  · split
    · exact length_numeral_le c cs
    · exact length_glyph_le c cs

/-! ## The whole text -/

/-- The tokens of a text, blanks and comments left out. -/
def scan : List Char → List Token
  | [] => []
  | c :: cs =>
    if isBlank c then scan cs
    else if c = '/' ∧ cs.head? = some '/' then scan (cs.dropWhile fun d => !isLineEnd d)
    else (lexeme c cs).1 :: scan (lexeme c cs).2
termination_by cs => cs.length
decreasing_by
  · simp
  · exact Nat.lt_succ_of_le (List.dropWhile_sublist _).length_le
  · exact Nat.lt_succ_of_le (length_lexeme_le c cs)

@[simp] theorem scan_nil : scan [] = [] := by rw [scan]

/-- A blank separates and leaves nothing. -/
theorem scan_blank {c : Char} (h : isBlank c) (cs : List Char) : scan (c :: cs) = scan cs := by
  rw [scan, if_pos h]

/-- A comment is skipped up to the end of its line. -/
theorem scan_comment (cs : List Char) :
    scan ('/' :: '/' :: cs) = scan (cs.dropWhile fun d => !isLineEnd d) := by
  rw [scan, if_neg (by decide), if_pos ⟨rfl, rfl⟩, List.dropWhile_cons, if_pos (by decide)]

/-- Anywhere else the longest token comes first. -/
theorem scan_lexeme {c : Char} {cs : List Char} (hb : isBlank c = false)
    (hc : ¬(c = '/' ∧ cs.head? = some '/')) :
    scan (c :: cs) = (lexeme c cs).1 :: scan (lexeme c cs).2 := by
  rw [scan, if_neg (by simp [hb]), if_neg hc]

/-- The tokens of a source text. -/
def ofSource (source : String) : List Token := scan source.toList

end Treewalk.Token
