import Treewalk.Rules

/-!
# The grammar

The sentences of the language, said without a reader. A derivation is a tree of its own, and
everything that makes it well formed is in its type: `Phrase level` derives an expression of a
layer, `Sentence` a statement, `Passage` a sequence of statements and `Braces` a block. Each has
the tokens it derives and the tree it denotes. Parentheses, closing braces and semicolons are
among the tokens and leave nothing in the tree.

The grammar is ambiguous where two statements stand next to each other: `a - b` is one statement
or two. A passage is `Separated` when it never rests on the second reading.
-/

namespace Treewalk.Grammar

/-- A token of one kind. -/
abbrev Of (kind : Token.Kind) : Type := { t : Token // t.kind = kind }

/-- The layers of expressions, loosest first. -/
inductive Level where
  | equality
  | order
  | sum
  | product
  | unary
  | primary
deriving DecidableEq

namespace Level

/-- The layer that the operands of a layer belong to. -/
def operand : Level → Level
  | .equality => .order
  | .order => .sum
  | .sum => .product
  | .product => .unary
  | .unary => .primary
  | .primary => .primary

/-- The operator that a kind of token spells between two operands of a layer. -/
def operator? : Level → Token.Kind → Option BinaryOp
  | .equality, .eq => some .equal
  | .equality, .notEq => some .notEqual
  | .order, .lt => some .less
  | .order, .gt => some .greater
  | .sum, .plus => some .add
  | .sum, .minus => some .sub
  | .product, .asterisk => some .mul
  | .product, .slash => some .div
  | _, _ => none

end Level

/-! ## Derivations -/

mutual

/-- An expression of a layer. -/
inductive Phrase : Level → Type
  /-- An operand on its own. -/
  | operand {level : Level} (inner : Phrase level.operand) (bound : level ≠ .primary) :
      Phrase level
  /-- A further operand behind an operator of the layer, which joins it to all before it. -/
  | joined {level : Level} (left : Phrase level) (sign : Token) (op : BinaryOp)
      (spells : level.operator? sign.kind = some op) (right : Phrase level.operand) : Phrase level
  /-- An operator in front of its operand. -/
  | operated (sign : Token) (op : UnaryOp) (spells : UnaryOp.ofKind? sign.kind = some op)
      (inner : Phrase .unary) : Phrase .unary
  | name (token : Of .ident) : Phrase .primary
  /-- A numeral that 64 bits hold. -/
  | numeral (token : Of .int) (value : Integer)
      (spells : Integer.ofText? token.val.literal = some value) : Phrase .primary
  | truth (token : Of .kwTrue) : Phrase .primary
  | falsity (token : Of .kwFalse) : Phrase .primary
  | group (opening : Of .lparen) (inner : Phrase .equality) (closing : Of .rparen) :
      Phrase .primary
  | choice (sign : Of .kwIf) (opening : Of .lparen) (condition : Phrase .equality)
      (closing : Of .rparen) (consequence : Braces) : Phrase .primary
  | choiceElse (sign : Of .kwIf) (opening : Of .lparen) (condition : Phrase .equality)
      (closing : Of .rparen) (consequence : Braces) (otherwise : Of .kwElse)
      (alternative : Braces) : Phrase .primary

/-- A block. -/
inductive Braces : Type
  | mk (opening : Of .lbrace) (body : Passage) (closing : Of .rbrace)

/-- A statement, with the semicolon behind it if there is one. -/
inductive Sentence : Type
  | binding (sign : Of .kwLet) (name : Of .ident) (assign : Of .assign)
      (value : Phrase .equality) (stop : Option (Of .semicolon))
  | result (sign : Of .kwReturn) (value : Phrase .equality) (stop : Option (Of .semicolon))
  /-- A result without a value. -/
  | bare (sign : Of .kwReturn) (stop : Option (Of .semicolon))
  | expression (value : Phrase .equality) (stop : Option (Of .semicolon))

/-- Statements one after the other. -/
inductive Passage : Type
  | nil
  | cons (first : Sentence) (rest : Passage)

end

/-- A single operand as an expression. -/
def Phrase.ofPrimary (p : Phrase .primary) : Phrase .equality :=
  .operand (.operand (.operand (.operand (.operand p nofun) nofun) nofun) nofun) nofun

/-- The token of a semicolon, if there is one. -/
def stopTokens (stop : Option (Of .semicolon)) : List Token := stop.toList.map Subtype.val

/-! ## The tokens of a derivation -/

mutual

/-- The tokens an expression is made of. -/
def Phrase.tokens : {level : Level} → Phrase level → List Token
  | _, .operand inner _ => inner.tokens
  | _, .joined left sign _ _ right => left.tokens ++ sign :: right.tokens
  | _, .operated sign _ _ inner => sign :: inner.tokens
  | _, .name token => [token.val]
  | _, .numeral token _ _ => [token.val]
  | _, .truth token => [token.val]
  | _, .falsity token => [token.val]
  | _, .group opening inner closing => opening.val :: (inner.tokens ++ [closing.val])
  | _, .choice sign opening condition closing consequence =>
    sign.val :: opening.val :: (condition.tokens ++ closing.val :: consequence.tokens)
  | _, .choiceElse sign opening condition closing consequence otherwise alternative =>
    sign.val :: opening.val :: (condition.tokens ++ closing.val ::
      (consequence.tokens ++ otherwise.val :: alternative.tokens))

/-- The tokens a block is made of. -/
def Braces.tokens : Braces → List Token
  | .mk opening body closing => opening.val :: (body.tokens ++ [closing.val])

/-- The tokens a statement is made of. -/
def Sentence.tokens : Sentence → List Token
  | .binding sign name assign value stop =>
    sign.val :: name.val :: assign.val :: (value.tokens ++ stopTokens stop)
  | .result sign value stop => sign.val :: (value.tokens ++ stopTokens stop)
  | .bare sign stop => sign.val :: stopTokens stop
  | .expression value stop => value.tokens ++ stopTokens stop

/-- The tokens a sequence of statements is made of. -/
def Passage.tokens : Passage → List Token
  | .nil => []
  | .cons first rest => first.tokens ++ rest.tokens

end

/-! ## The tree of a derivation -/

mutual

/-- The expression a derivation denotes. -/
def Phrase.tree : {level : Level} → Phrase level → Expr
  | _, .operand inner _ => inner.tree
  | _, .joined left sign op _ right => .binary sign left.tree op right.tree
  | _, .operated sign op _ inner => .unary sign op inner.tree
  | _, .name token => .reference ⟨token.val, token.val.literal⟩
  | _, .numeral token value _ => .integer token.val value
  | _, .truth token => .boolean token.val true
  | _, .falsity token => .boolean token.val false
  | _, .group _ inner _ => inner.tree
  | _, .choice sign _ condition _ consequence =>
    .conditional sign.val condition.tree consequence.tree none
  | _, .choiceElse sign _ condition _ consequence _ alternative =>
    .conditional sign.val condition.tree consequence.tree (some alternative.tree)

/-- The block a derivation denotes. -/
def Braces.tree : Braces → Block
  | .mk opening body _ => ⟨opening.val, body.trees⟩

/-- The statement a derivation denotes. One that is an expression keeps its first token, a
parenthesis too. -/
def Sentence.tree : Sentence → Stmt
  | .binding sign name _ value _ =>
    .binding sign.val ⟨name.val, name.val.literal⟩ (some value.tree)
  | .result sign value _ => .result sign.val (some value.tree)
  | .bare sign _ => .result sign.val none
  | .expression value _ => .expression (Token.next value.tokens) value.tree

/-- The statements a derivation denotes. -/
def Passage.trees : Passage → List Stmt
  | .nil => []
  | .cons first rest => first.tree :: rest.trees

end

/-- The program a derivation denotes. -/
def Passage.program (passage : Passage) : Program := ⟨passage.trees⟩

/-! ## Separation -/

/-- May a statement stand directly in front of the others? Without a semicolon, one that ends in an
expression may not when they start with a minus sign, and a result without a value only when there
are none. -/
def Sentence.MayPrecede (rest : Passage) : Sentence → Prop
  | .binding _ _ _ _ none | .result _ _ none | .expression _ none =>
    (Token.next rest.tokens).kind ≠ .minus
  | .bare _ none => rest = .nil
  | _ => True

mutual

/-- Every sequence of statements inside an expression is separated. -/
def Phrase.Separated : {level : Level} → Phrase level → Prop
  | _, .operand inner _ => inner.Separated
  | _, .joined left _ _ _ right => left.Separated ∧ right.Separated
  | _, .operated _ _ _ inner => inner.Separated
  | _, .name _ | _, .numeral _ _ _ | _, .truth _ | _, .falsity _ => True
  | _, .group _ inner _ => inner.Separated
  | _, .choice _ _ condition _ consequence => condition.Separated ∧ consequence.Separated
  | _, .choiceElse _ _ condition _ consequence _ alternative =>
    condition.Separated ∧ consequence.Separated ∧ alternative.Separated

/-- Every sequence of statements inside a block is separated. -/
def Braces.Separated : Braces → Prop
  | .mk _ body _ => body.Separated

/-- Every sequence of statements inside a statement is separated. -/
def Sentence.Separated : Sentence → Prop
  | .binding _ _ _ value _ => value.Separated
  | .result _ value _ => value.Separated
  | .bare _ _ => True
  | .expression value _ => value.Separated

/-- No statement of the sequence, or of one inside it, runs into the next. -/
def Passage.Separated : Passage → Prop
  | .nil => True
  | .cons first rest => first.Separated ∧ first.MayPrecede rest ∧ rest.Separated

end

end Treewalk.Grammar
