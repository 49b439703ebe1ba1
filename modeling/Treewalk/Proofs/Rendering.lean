import Mathlib.Data.List.Forall2
import Treewalk.Tree.Render
import Treewalk.Proofs.Batch
import Treewalk.Proofs.Grammar.Derived

/-!
# Rendered programs are read back

The rendering of an accepted program is a source text again. Every application is rendered in
parentheses, which the reader drops, so reading the rendering gives the same tree with the same
tokens: the parentheses show nowhere but in the first token of a statement that is an expression.

The difficulty is in the text. A token is scanned as itself only in front of a character that does
not lengthen it (`scan_spelled`), and a rendering puts no gap between two statements. An application
ends in a parenthesis, and a binding or a result in a semicolon, but a name or a numeral has to be
the last statement. A conditional is not rendered with its parentheses and braces at all, so there
must be none.
-/

namespace Treewalk

/-! ## Tokens in front of text -/

namespace Token

/-- Does the character lengthen a token of this kind? -/
def Kind.lengthenedBy : Kind → Char → Bool
  | .ident | .kwFn | .kwLet | .kwTrue | .kwFalse | .kwIf | .kwElse | .kwReturn => isNameChar
  | .int => Char.isDigit
  | .assign | .bang => (· == '=')
  | .slash => (· == '/')
  | _ => fun _ => false

/-- What begins the text does not belong to a run in front of it. -/
theorem takeWhile_append_of_head {p : Char → Bool} {rest : List Char}
    (h : ∀ d ∈ rest.head?, p d = false) (cs : List Char) :
    (cs ++ rest).takeWhile p = cs.takeWhile p := by
  cases rest with
  | nil => rw [List.append_nil]
  | cons d more => exact takeWhile_append_cons (h d rfl) cs more

theorem dropWhile_append_of_head {p : Char → Bool} {rest : List Char}
    (h : ∀ d ∈ rest.head?, p d = false) (cs : List Char) :
    (cs ++ rest).dropWhile p = cs.dropWhile p ++ rest := by
  cases rest with
  | nil => rw [List.append_nil, List.append_nil]
  | cons d more => exact dropWhile_append_cons (h d rfl) cs more

theorem lengthenedBy_ofWord (word : String) : (Kind.ofWord word).lengthenedBy = isNameChar := by
  have hall : ∀ entry ∈ keywords, entry.2.lengthenedBy = isNameChar := by
    intro entry hentry
    simp only [keywords, List.mem_cons, List.not_mem_nil, or_false] at hentry
    rcases hentry with rfl | rfl | rfl | rfl | rfl | rfl | rfl <;> rfl
  unfold Kind.ofWord
  cases hlookup : keywords.lookup word with
  | none => rfl
  | some kind =>
    obtain ⟨before, after, hkeywords, -⟩ := List.lookup_eq_some_iff.mp hlookup
    exact hall (word, kind) (hkeywords ▸ List.mem_append_right _ List.mem_cons_self)

/-- A token that is all of a text is the token of every text that goes on with something else. -/
theorem lexeme_append {c : Char} {cs rest : List Char} {t : Token} (h : lexeme c cs = (t, []))
    (hrest : ∀ d ∈ rest.head?, t.kind.lengthenedBy d = false) :
    lexeme c (cs ++ rest) = (t, rest) := by
  unfold lexeme at h ⊢
  split at h
  · rename_i hname
    obtain ⟨rfl, hdrop⟩ := Prod.mk.inj h
    rw [lengthenedBy_ofWord] at hrest
    rw [if_pos hname, word, takeWhile_append_of_head hrest, dropWhile_append_of_head hrest, hdrop]
    rfl
  · rename_i hname
    rw [if_neg hname]
    split at h
    · rename_i hdigit
      obtain ⟨rfl, hdrop⟩ := Prod.mk.inj h
      have hrest : ∀ d ∈ rest.head?, d.isDigit = false := hrest
      rw [if_pos hdigit, numeral, takeWhile_append_of_head hrest, dropWhile_append_of_head hrest,
        hdrop]
      rfl
    · rename_i hdigit
      rw [if_neg hdigit]
      unfold glyph at h
      split at h
      · obtain ⟨rfl, rfl⟩ := Prod.mk.inj h
        rfl
      · obtain ⟨rfl, rfl⟩ := Prod.mk.inj h
        rfl
      · obtain ⟨rfl, rfl⟩ := Prod.mk.inj h
        rw [List.nil_append]
        unfold glyph
        split
        · exact absurd (hrest _ rfl) (by decide)
        · exact absurd (hrest _ rfl) (by decide)
        · rfl

/-- **A spelled token is scanned as itself** in front of what does not lengthen it. -/
theorem scan_spelled {t : Token} {rest : List Char} (h : t.kind.Spelled t.literal.toList)
    (hrest : ∀ d ∈ rest.head?, t.kind.lengthenedBy d = false) :
    scan (t.literal.toList ++ rest) = t :: scan rest := by
  obtain ⟨c, cs, htext⟩ := exists_cons_of_spelled h
  rw [htext] at h ⊢
  have hlexeme : lexeme c cs = (t, []) := by
    rw [lexeme_of_spelled h, ← htext, String.ofList_toList]
  have happend := lexeme_append hlexeme hrest
  have hblank : isBlank c = false := by
    rw [Bool.eq_false_iff, Ne, isBlank_iff]
    exact fun hspace => not_spelled_of_isSpace hspace _ h
  have hcomment : ¬(c = '/' ∧ (cs ++ rest).head? = some '/') := by
    rintro ⟨rfl, hhead⟩
    have hslash : lexeme '/' cs = (⟨.slash, "/"⟩, cs) := rfl
    obtain ⟨rfl, rfl⟩ := Prod.mk.inj (hslash.symm.trans hlexeme)
    exact absurd (hrest '/' hhead) (by decide)
  rw [List.cons_append, scan_lexeme hblank hcomment, happend]

theorem IsSpelled.spelled {t : Token} (h : t.IsSpelled) (hkind : t.kind ≠ .illegal) :
    t.kind.Spelled t.literal.toList :=
  h.resolve_right fun hillegal => hkind hillegal.1

theorem ne_illegal_of_fixed? {kind : Kind} {text : String} (h : kind.fixed? = some text) :
    kind ≠ .illegal := by
  rintro rfl
  cases h

/-- A kind with a fixed text is spelled by no other. -/
theorem IsSpelled.literal_eq {t : Token} (h : t.IsSpelled) {text : String}
    (hfixed : t.kind.fixed? = some text) : t.literal = text := by
  have hall : ∀ kind : Kind, kind.fixed? = some text → kind.Spelled t.literal.toList →
      t.literal = text := by
    intro kind hfixed h
    cases kind with
    | ident | int => cases hfixed
    | _ => rw [← Option.some.inj (h.symm.trans hfixed), String.ofList_toList]
  exact hall t.kind hfixed (h.spelled (ne_illegal_of_fixed? hfixed))

theorem isSpelled_of_cut {text : List Char} {tokens : List Token} (h : Cut text tokens) :
    ∀ t ∈ tokens, t.IsSpelled := by
  induction h with
  | nil => exact nofun
  | cons _ hspelled _ _ ih =>
    intro t ht
    rcases List.mem_cons.mp ht with rfl | ht
    · exact hspelled
    · exact ih t ht

end Token

/-! ## What is read back -/

mutual

/-- Is there a conditional in an expression? -/
def Expr.chooses : Expr → Bool
  | .reference _ => false
  | .integer _ _ => false
  | .boolean _ _ => false
  | .unary _ _ operand => operand.chooses
  | .binary _ left _ right => left.chooses || right.chooses
  | .conditional _ _ _ _ => true

/-- Is there a conditional in a block? -/
def Block.chooses : Block → Bool
  | ⟨_, statements⟩ => Stmt.anyChooses statements

/-- Is there a conditional in a statement? -/
def Stmt.chooses : Stmt → Bool
  | .binding _ _ value => Expr.choosesIfAny value
  | .result _ value => Expr.choosesIfAny value
  | .expression _ value => value.chooses
  | .block body => body.chooses

/-- Is there a conditional in an expression, if there is one? -/
def Expr.choosesIfAny : Option Expr → Bool
  | none => false
  | some value => value.chooses

/-- Is there a conditional in one of the statements? -/
def Stmt.anyChooses : List Stmt → Bool
  | [] => false
  | statement :: rest => statement.chooses || Stmt.anyChooses rest

end

/-- Is an expression an operator applied to its operands? -/
def Expr.isApplication : Expr → Bool
  | .unary _ _ _ | .binary _ _ _ _ => true
  | _ => false

/-- The statements are the same, up to the first token of an expression. -/
inductive Stmt.Alike : Stmt → Stmt → Prop
  | refl (statement : Stmt) : Alike statement statement
  | expression (token token' : Token) (value : Expr) :
      Alike (.expression token value) (.expression token' value)

theorem Stmt.Alike.render_eq {a b : Stmt} (h : Stmt.Alike a b) : a.render = b.render := by
  cases h with
  | refl => rfl
  | expression token token' value => rw [Stmt.render, Stmt.render]

theorem Stmt.renderAll_eq {as bs : List Stmt} (h : List.Forall₂ Stmt.Alike as bs) :
    Stmt.renderAll as = Stmt.renderAll bs := by
  induction h with
  | nil => rfl
  | cons hab _ ih => rw [Stmt.renderAll, Stmt.renderAll, hab.render_eq, ih]

/-! ## Expressions -/

namespace Grammar

open Token

theorem Of.kind_ne {kind kind' : Kind} (t : Of kind) (h : kind ≠ kind') : t.val.kind ≠ kind' := by
  rwa [t.property]

/-- The parenthesis that opens a group. -/
def leftParen : Of .lparen := ⟨⟨.lparen, "("⟩, Eq.refl Kind.lparen⟩

/-- The parenthesis that closes a group. -/
def rightParen : Of .rparen := ⟨⟨.rparen, ")"⟩, Eq.refl Kind.rparen⟩

theorem scan_leftParen (rest : List Char) : scan ('(' :: rest) = leftParen.val :: scan rest :=
  scan_spelled (t := leftParen.val) rfl fun _ _ => rfl

theorem scan_rightParen (rest : List Char) : scan (')' :: rest) = rightParen.val :: scan rest :=
  scan_spelled (t := rightParen.val) rfl fun _ _ => rfl

/-- A space separates any token from what follows it. -/
theorem scan_spelled_space {t : Token} (h : t.kind.Spelled t.literal.toList) (rest : List Char) :
    scan (t.literal.toList ++ ' ' :: rest) = t :: scan rest := by
  have hspace : ∀ d ∈ (' ' :: rest).head?, t.kind.lengthenedBy d = false := by
    intro d hd
    obtain rfl : ' ' = d := Option.some.inj hd
    cases t.kind <;> rfl
  rw [scan_spelled h hspace, scan_blank rfl]

/-- The text does not begin as names and numerals go on. -/
def Breaks (rest : List Char) : Prop :=
  ∀ d ∈ rest.head?, isNameChar d = false ∧ d.isDigit = false

theorem breaks_nil : Breaks [] := nofun

theorem breaks_cons {d : Char} (h : isNameChar d = false ∧ d.isDigit = false) (rest : List Char) :
    Breaks (d :: rest) := by
  intro d' hd'
  obtain rfl : d = d' := Option.some.inj hd'
  exact h

/-- The tokens are those of the expression's rendering, and derive the expression. -/
structure Written (e : Expr) (tokens : List Token) : Prop where
  spells : Spells .primary tokens e
  starts : e.render.toList.head? ≠ some '='
  nonempty : e.render.toList ≠ []
  /-- Behind an application anything may follow. -/
  scanned : ∀ rest, e.isApplication = true ∨ Breaks rest →
    scan (e.render.toList ++ rest) = tokens ++ scan rest

variable {e l r : Expr} {tokens left right : List Token} {sign : Token}

/-- Parentheses make an operand of any expression. -/
theorem Spells.group (h : Spells .equality tokens e) :
    Spells .primary (leftParen.val :: (tokens ++ [rightParen.val])) e := by
  obtain ⟨p, hsep, rfl, rfl⟩ := h
  exact ⟨.group leftParen p rightParen, hsep, rfl, rfl⟩

/-- An operator is spelled by its symbol. -/
theorem fixed?_of_unaryOp {kind : Kind} {op : UnaryOp} (h : UnaryOp.ofKind? kind = some op) :
    kind.fixed? = some op.symbol := by
  unfold UnaryOp.ofKind? at h
  split at h
  case h_3 => cases h
  all_goals
    obtain rfl := Option.some.inj h
    rfl

theorem fixed?_of_binaryOp {kind : Kind} {op : BinaryOp} (h : BinaryOp.ofKind? kind = some op) :
    kind.fixed? = some op.symbol := by
  unfold BinaryOp.ofKind? at h
  split at h
  case h_9 => cases h
  all_goals
    obtain rfl := Option.some.inj h
    rfl

/-- **An operator in front of its operand is written in parentheses.** -/
theorem Written.unary {op : UnaryOp} (spells : UnaryOp.ofKind? sign.kind = some op)
    (hsign : sign.IsSpelled) (h : Written e tokens) :
    Written (.unary sign op e) (leftParen.val :: (sign :: tokens ++ [rightParen.val])) := by
  have hfixed := fixed?_of_unaryOp spells
  have hspelled := hsign.spelled (ne_illegal_of_fixed? hfixed)
  have hliteral := hsign.literal_eq hfixed
  have hinner := (h.spells.loosen (by decide)).operated spells
  have htext : (Expr.unary sign op e).render.toList =
      '(' :: (sign.literal.toList ++ (e.render.toList ++ [')'])) := by
    rw [Expr.render, hliteral]
    simp only [String.toList_append, List.append_assoc]
    rfl
  refine ⟨(hinner.loosen (by decide)).group, ?_, ?_, fun rest _ => ?_⟩
  · rw [htext]
    exact fun heq => absurd (Option.some.inj heq) (by decide)
  · rw [htext]
    exact List.cons_ne_nil _ _
  · -- only an equals sign lengthens an operator, and no rendering starts with one
    have hrest : ∀ d ∈ (e.render.toList ++ ')' :: rest).head?,
        sign.kind.lengthenedBy d = false := by
      intro d hd
      rw [List.head?_append_of_ne_nil _ h.nonempty] at hd
      have hne : d ≠ '=' := fun heq => h.starts (heq ▸ hd)
      unfold UnaryOp.ofKind? at spells
      split at spells
      · rename_i hkind
        rw [hkind]
        exact beq_eq_false_iff_ne.mpr hne
      · rename_i hkind
        rw [hkind]
        rfl
      · cases spells
    rw [htext]
    simp only [List.cons_append, List.append_assoc, List.nil_append]
    rw [scan_leftParen, scan_spelled hspelled hrest,
      h.scanned _ (.inr (breaks_cons ⟨rfl, rfl⟩ rest)), scan_rightParen]

/-- **And so is one between its operands.** -/
theorem Written.binary {level : Level} {op : BinaryOp}
    (spells : level.operator? sign.kind = some op) (hsign : sign.IsSpelled)
    (hl : Written l left) (hr : Written r right) :
    Written (.binary sign l op r)
      (leftParen.val :: (left ++ sign :: right ++ [rightParen.val])) := by
  have hkind := Level.ofKind?_of_operator spells
  have hfixed := fixed?_of_binaryOp hkind
  have hspelled := hsign.spelled (ne_illegal_of_fixed? hfixed)
  have hliteral := hsign.literal_eq hfixed
  have htext : (Expr.binary sign l op r).render.toList =
      '(' :: (l.render.toList ++ (' ' :: (sign.literal.toList ++ (' ' ::
        (r.render.toList ++ [')']))))) := by
    rw [Expr.render, hliteral]
    simp only [String.toList_append, List.append_assoc]
    rfl
  have hinner : Spells level (left ++ sign :: right) (.binary sign l op r) :=
    .joined spells (hl.spells.loosen (by cases level <;> decide))
      (hr.spells.loosen (by cases level <;> decide))
  refine ⟨(hinner.loosen (by cases level <;> decide)).group, ?_, ?_, fun rest _ => ?_⟩
  · rw [htext]
    exact fun heq => absurd (Option.some.inj heq) (by decide)
  · rw [htext]
    exact List.cons_ne_nil _ _
  · rw [htext]
    simp only [List.cons_append, List.append_assoc, List.nil_append]
    rw [scan_leftParen, hl.scanned _ (.inr (breaks_cons ⟨rfl, rfl⟩ _)), scan_blank rfl,
      scan_spelled_space hspelled, hr.scanned _ (.inr (breaks_cons ⟨rfl, rfl⟩ rest)),
      scan_rightParen]

/-- The kinds of token that are an expression by themselves. -/
def IsAtom (kind : Kind) : Prop :=
  kind = .ident ∨ kind = .int ∨ kind = .kwTrue ∨ kind = .kwFalse

/-- What begins with an equals sign is a comparison or an assignment. -/
theorem kind_lexeme_equals (cs : List Char) :
    (lexeme '=' cs).1.kind = .eq ∨ (lexeme '=' cs).1.kind = .assign := by
  show (glyph '=' cs).1.kind = .eq ∨ (glyph '=' cs).1.kind = .assign
  unfold glyph
  split
  · exact .inl rfl
  · rename_i hbang
    exact absurd hbang (by decide)
  · exact .inr rfl

/-- **An expression of one token is written as the token.** -/
theorem Written.atom {t : Token} (hkind : IsAtom t.kind) (hspelled : t.IsSpelled)
    (hspells : Spells .primary [t] e) (hrender : e.render = t.literal)
    (happlication : e.isApplication = false) : Written e [t] := by
  have hspelled : t.kind.Spelled t.literal.toList :=
    hspelled.spelled fun hillegal => by rw [hillegal] at hkind; revert hkind; unfold IsAtom; decide
  refine ⟨hspells, ?_, ?_, fun rest hrest => ?_⟩
  · rw [hrender]
    intro hhead
    obtain ⟨cs, htext⟩ := List.head?_eq_some_iff.mp hhead
    rw [htext] at hspelled
    have hequals := kind_lexeme_equals cs
    rw [lexeme_of_spelled hspelled] at hequals
    revert hkind
    unfold IsAtom
    rcases hequals with hequals | hequals <;> rw [hequals] <;> decide
  · rw [hrender]
    obtain ⟨c, cs, htext⟩ := exists_cons_of_spelled hspelled
    rw [htext]
    exact List.cons_ne_nil _ _
  · rw [happlication] at hrest
    rw [hrender]
    refine scan_spelled hspelled fun d hd => ?_
    obtain ⟨hname, hdigit⟩ := hrest.resolve_left Bool.false_ne_true d hd
    rcases hkind with hkind | hkind | hkind | hkind <;> rw [hkind]
    · exact hname
    · exact hdigit
    · exact hname
    · exact hname

/-- **Every expression is written somehow**, if no conditional is in it. -/
theorem Phrase.exists_written : ∀ {level : Level} (p : Phrase level),
    (∀ t ∈ p.tokens, t.IsSpelled) → p.tree.chooses = false → ∃ tokens, Written p.tree tokens
  | _, .operand inner _, h, hplain => inner.exists_written h hplain
  | _, .joined left sign op spells right, h, hplain => by
    simp only [Phrase.tokens, List.mem_append, List.mem_cons] at h
    simp only [Phrase.tree, Expr.chooses, Bool.or_eq_false_iff] at hplain
    obtain ⟨_, hl⟩ := left.exists_written (fun t ht => h t (.inl ht)) hplain.1
    obtain ⟨_, hr⟩ := right.exists_written (fun t ht => h t (.inr (.inr ht))) hplain.2
    exact ⟨_, .binary spells (h sign (.inr (.inl rfl))) hl hr⟩
  | _, .operated sign op spells inner, h, hplain => by
    simp only [Phrase.tokens, List.mem_cons] at h
    obtain ⟨_, hinner⟩ := inner.exists_written (fun t ht => h t (.inr ht)) hplain
    exact ⟨_, .unary spells (h sign (.inl rfl)) hinner⟩
  | _, .name token, h, _ =>
    ⟨_, .atom (.inl token.property) (h _ List.mem_cons_self) ⟨.name token, trivial, rfl, rfl⟩
      rfl rfl⟩
  | _, .numeral token value spells, h, _ =>
    ⟨_, .atom (.inr (.inl token.property)) (h _ List.mem_cons_self)
      ⟨.numeral token value spells, trivial, rfl, rfl⟩ rfl rfl⟩
  | _, .truth token, h, _ =>
    ⟨_, .atom (.inr (.inr (.inl token.property))) (h _ List.mem_cons_self)
      ⟨.truth token, trivial, rfl, rfl⟩ rfl rfl⟩
  | _, .falsity token, h, _ =>
    ⟨_, .atom (.inr (.inr (.inr token.property))) (h _ List.mem_cons_self)
      ⟨.falsity token, trivial, rfl, rfl⟩ rfl rfl⟩
  | _, .group opening inner closing, h, hplain =>
    inner.exists_written
      (fun t ht => h t (List.mem_cons_of_mem _ (List.mem_append_left _ ht))) hplain
  | _, .choice _ _ _ _ _, _, hplain => Bool.noConfusion hplain
  | _, .choiceElse _ _ _ _ _ _ _, _, hplain => Bool.noConfusion hplain

/-- No operand begins with a minus sign. -/
theorem Spells.next_ne_minus (h : Spells .primary tokens e) :
    (Token.next tokens).kind ≠ .minus := by
  obtain ⟨p, -, rfl, -⟩ := h
  intro hminus
  cases p with
  | operand inner bound => exact bound rfl
  | joined left sign op spells right => cases spells
  | name token | numeral token _ _ | truth token | falsity token =>
    exact token.kind_ne (by decide) hminus
  | group opening _ _ => exact opening.kind_ne (by decide) hminus
  | choice sign _ _ _ _ | choiceElse sign _ _ _ _ _ _ => exact sign.kind_ne (by decide) hminus

/-! ## Statements -/

/-- The sign of an assignment. -/
def assignSign : Of .assign := ⟨⟨.assign, "="⟩, rfl⟩

/-- The semicolon behind a statement. -/
def semicolon : Of .semicolon := ⟨⟨.semicolon, ";"⟩, rfl⟩

theorem scan_semicolon (rest : List Char) : scan (';' :: rest) = semicolon.val :: scan rest :=
  scan_spelled (t := semicolon.val) rfl fun _ _ => rfl

/-- The sentence has the tokens of the statement's rendering, and derives it up to the first token
of an expression. -/
structure Rewritten (statement : Stmt) (s : Sentence) : Prop where
  separated : s.Separated
  alike : Stmt.Alike statement s.tree
  next_ne_minus : ∀ rest, (Token.next (s.tokens ++ rest)).kind ≠ .minus
  mayPrecede : ∀ rest : Passage, (Token.next rest.tokens).kind ≠ .minus → s.MayPrecede rest
  scanned : ∀ more,
    (∀ token value, statement = .expression token value → value.isApplication = true) ∨ more = [] →
      scan (statement.render.toList ++ more) = s.tokens ++ scan more

section Rewritten

variable {p : Phrase .equality} (hsep : p.Separated) (h : Written p.tree p.tokens)
include hsep h

theorem Rewritten.binding {sign : Of .kwLet} {name : Of .ident} (hsign : sign.val.IsSpelled)
    (hname : name.val.IsSpelled) :
    Rewritten (.binding sign.val ⟨name.val, name.val.literal⟩ (some p.tree))
      (.binding sign name assignSign p (some semicolon)) := by
  have hlet := hsign.spelled (sign.kind_ne (by decide))
  have hident := hname.spelled (name.kind_ne (by decide))
  have hassign : assignSign.val.kind.Spelled assignSign.val.literal.toList := rfl
  refine ⟨hsep, .refl _, fun _ => sign.kind_ne (by decide), fun _ _ => trivial, fun more _ => ?_⟩
  have htext : (Stmt.binding sign.val ⟨name.val, name.val.literal⟩ (some p.tree)).render.toList =
      sign.val.literal.toList ++ ' ' :: (name.val.literal.toList ++ ' ' ::
        (assignSign.val.literal.toList ++ ' ' :: (p.tree.render.toList ++ [';']))) := by
    rw [Stmt.render, Expr.renderIfAny, String.empty_append]
    simp only [String.toList_append, List.append_assoc]
    rfl
  rw [htext]
  simp only [List.cons_append, List.append_assoc, List.nil_append]
  rw [scan_spelled_space hlet, scan_spelled_space hident, scan_spelled_space hassign,
    h.scanned _ (.inr (breaks_cons ⟨rfl, rfl⟩ more)), scan_semicolon]
  simp only [Sentence.tokens, stopTokens, List.cons_append, List.append_assoc]
  rfl

theorem Rewritten.result {sign : Of .kwReturn} (hsign : sign.val.IsSpelled) :
    Rewritten (.result sign.val (some p.tree)) (.result sign p (some semicolon)) := by
  have hreturn := hsign.spelled (sign.kind_ne (by decide))
  refine ⟨hsep, .refl _, fun _ => sign.kind_ne (by decide), fun _ _ => trivial, fun more _ => ?_⟩
  have htext : (Stmt.result sign.val (some p.tree)).render.toList =
      sign.val.literal.toList ++ ' ' :: (p.tree.render.toList ++ [';']) := by
    rw [Stmt.render, Expr.renderIfAny]
    simp only [String.toList_append, List.append_assoc]
    rfl
  rw [htext]
  simp only [List.cons_append, List.append_assoc, List.nil_append]
  rw [scan_spelled_space hreturn, h.scanned _ (.inr (breaks_cons ⟨rfl, rfl⟩ more)),
    scan_semicolon]
  simp only [Sentence.tokens, stopTokens, List.cons_append, List.append_assoc]
  rfl

theorem Rewritten.expression (token : Token) (hminus : (Token.next p.tokens).kind ≠ .minus) :
    Rewritten (.expression token p.tree) (.expression p none) := by
  refine ⟨hsep, .expression _ _ _, fun rest => ?_, fun _ hrest => hrest, fun more hmore => ?_⟩
  · obtain ⟨t, others, htokens, -⟩ := p.exists_tokens_eq
    rw [htokens] at hminus
    rw [Sentence.tokens, htokens]
    exact hminus
  · have hend : p.tree.isApplication = true ∨ Breaks more := by
      rcases hmore with happlication | rfl
      · exact .inl (happlication _ _ rfl)
      · exact .inr breaks_nil
    rw [Stmt.render, h.scanned more hend, Sentence.tokens, stopTokens]
    simp only [Option.toList_none, List.map_nil, List.append_nil]

end Rewritten

theorem Rewritten.bare {sign : Of .kwReturn} (hsign : sign.val.IsSpelled) :
    Rewritten (.result sign.val none) (.bare sign (some semicolon)) := by
  have hreturn := hsign.spelled (sign.kind_ne (by decide))
  refine ⟨trivial, .refl _, fun _ => sign.kind_ne (by decide), fun _ _ => trivial,
    fun more _ => ?_⟩
  have hrest : ∀ d ∈ (';' :: more).head?, sign.val.kind.lengthenedBy d = false := by
    intro d hd
    obtain rfl : ';' = d := Option.some.inj hd
    rw [sign.property]
    rfl
  have htext : (Stmt.result sign.val none).render.toList =
      sign.val.literal.toList ++ [';'] := by
    rw [Stmt.render, Expr.renderIfAny, String.append_empty, String.toList_append]
    rfl
  rw [htext, List.append_assoc, List.singleton_append, scan_spelled hreturn hrest,
    scan_semicolon]
  rfl

/-- What an expression is written as derives it too. -/
theorem Phrase.exists_canonical (value : Phrase .equality) (h : ∀ t ∈ value.tokens, t.IsSpelled)
    (hplain : value.tree.chooses = false) :
    ∃ p : Phrase .equality, p.Separated ∧ p.tree = value.tree ∧
      (Token.next p.tokens).kind ≠ .minus ∧ Written p.tree p.tokens := by
  obtain ⟨tokens, hvalue⟩ := value.exists_written h hplain
  obtain ⟨p, hsep, rfl, htree⟩ : Spells .equality tokens value.tree :=
    hvalue.spells.loosen (by decide)
  exact ⟨p, hsep, htree, hvalue.spells.next_ne_minus, htree ▸ hvalue⟩

/-- **Every statement is rewritten somehow**, if no conditional is in it. -/
theorem Sentence.exists_rewritten (s : Sentence) (h : ∀ t ∈ s.tokens, t.IsSpelled)
    (hplain : s.tree.chooses = false) : ∃ s', Rewritten s.tree s' := by
  cases s with
  | binding sign name assign value stop =>
    simp only [Sentence.tokens, List.mem_cons, List.mem_append] at h
    obtain ⟨p, hsep, htree, -, hp⟩ :=
      value.exists_canonical (fun t ht => h t (.inr (.inr (.inr (.inl ht))))) hplain
    rw [Sentence.tree, ← htree]
    exact ⟨_, .binding hsep hp (h _ (.inl rfl)) (h _ (.inr (.inl rfl)))⟩
  | result sign value stop =>
    simp only [Sentence.tokens, List.mem_cons, List.mem_append] at h
    obtain ⟨p, hsep, htree, -, hp⟩ :=
      value.exists_canonical (fun t ht => h t (.inr (.inl ht))) hplain
    rw [Sentence.tree, ← htree]
    exact ⟨_, .result hsep hp (h _ (.inl rfl))⟩
  | bare sign stop => exact ⟨_, .bare (h _ List.mem_cons_self)⟩
  | expression value stop =>
    simp only [Sentence.tokens, List.mem_append] at h
    obtain ⟨p, hsep, htree, hminus, hp⟩ :=
      value.exists_canonical (fun t ht => h t (.inl ht)) hplain
    rw [Sentence.tree, ← htree]
    exact ⟨_, .expression hsep hp _ hminus⟩

/-- **A sequence of statements is rewritten statement by statement.** -/
theorem Passage.exists_rewritten : ∀ p : Passage, (∀ t ∈ p.tokens, t.IsSpelled) →
    Stmt.anyChooses p.trees = false →
    (∀ token value, .expression token value ∈ p.trees.dropLast → value.isApplication = true) →
      ∃ q : Passage, q.Separated ∧ (Token.next q.tokens).kind ≠ .minus ∧
        List.Forall₂ Stmt.Alike p.trees q.trees ∧ scan (Stmt.renderAll p.trees).toList = q.tokens
  | .nil, _, _, _ => ⟨.nil, trivial, nofun, .nil, scan_nil⟩
  | .cons first others, h, hplain, hclosed => by
    simp only [Passage.tokens, List.mem_append] at h
    simp only [Passage.trees, Stmt.anyChooses, Bool.or_eq_false_iff] at hplain
    rw [Passage.trees] at hclosed
    obtain ⟨s, hs⟩ := first.exists_rewritten (fun t ht => h t (.inl ht)) hplain.1
    have hrest : ∀ token value, .expression token value ∈ others.trees.dropLast →
        value.isApplication = true := by
      intro token value hmem
      refine hclosed token value ?_
      rw [List.dropLast_cons_of_ne_nil (List.ne_nil_of_mem (List.dropLast_subset _ hmem))]
      exact List.mem_cons_of_mem _ hmem
    obtain ⟨q, hsep, hminus, halike, hscan⟩ :=
      others.exists_rewritten (fun t ht => h t (.inr ht)) hplain.2 hrest
    refine ⟨.cons s q, ⟨hs.separated, hs.mayPrecede q hminus, hsep⟩, hs.next_ne_minus q.tokens,
      .cons hs.alike halike, ?_⟩
    have hfirst : (∀ token value, first.tree = .expression token value →
        value.isApplication = true) ∨ (Stmt.renderAll others.trees).toList = [] := by
      by_cases hnil : others.trees = []
      · rw [hnil]
        exact .inr rfl
      · refine .inl fun token value heq => hclosed token value ?_
        rw [List.dropLast_cons_of_ne_nil hnil, heq]
        exact List.mem_cons_self
    rw [Passage.trees, Stmt.renderAll, String.toList_append, hs.scanned _ hfirst, hscan,
      Passage.tokens]

end Grammar

/-! ## Programs -/

/-- **A rendered program is read back.** The rendering of an accepted program without conditionals,
in which an expression for its own sake is an application or comes last, is accepted as the same
program, every token included, up to the first token of an expression for its own sake. Rendered
again it is the same text. -/
theorem Program.ofSource_render {source : String} {program : Program}
    (h : Program.ofSource source = .ok program)
    (hplain : Stmt.anyChooses program.statements = false)
    (hclosed : ∀ token value, .expression token value ∈ program.statements.dropLast →
      value.isApplication = true) :
    ∃ again : Program, Program.ofSource program.render = .ok again ∧
      List.Forall₂ Stmt.Alike program.statements again.statements ∧
      again.render = program.render := by
  obtain ⟨hclean, hvalue⟩ := Program.ofSource_eq_ok_iff.mp h
  obtain ⟨passage, rest, hsep, htokens, hrest⟩ := Grammar.exists_of_readProgram _ hclean
  have htrees : passage.trees = program.statements := by
    rw [← hvalue, htokens, Grammar.Passage.readProgram_tokens hrest passage hsep]
  have hspelled : ∀ t ∈ passage.tokens, t.IsSpelled := fun t ht =>
    Token.isSpelled_of_cut (Token.cut_scan source.toList) t
      (by rw [← Token.ofSource, htokens]; exact List.mem_append_left _ ht)
  rw [← htrees] at hplain hclosed
  obtain ⟨q, hq, -, halike, hscan⟩ := passage.exists_rewritten hspelled hplain hclosed
  rw [htrees] at halike hscan
  have hsource : Token.ofSource program.render = q.tokens ++ [] := by
    rw [List.append_nil]
    exact hscan
  have hnil : (Token.next []).kind = .eof := rfl
  have hread := Grammar.Passage.readProgram_tokens hnil q hq
  rw [← hsource] at hread
  refine ⟨⟨q.trees⟩, Program.ofSource_eq_ok_iff.mpr ?_, halike, (Stmt.renderAll_eq halike).symm⟩
  rw [hread]
  exact ⟨rfl, rfl⟩

/-- The program `let x = -a * 007; return; !x == (y) (z)`. -/
def Program.mixed : Program :=
  ⟨[.binding ⟨.kwLet, "let"⟩ ⟨⟨.ident, "x"⟩, "x"⟩ (some (.binary ⟨.asterisk, "*"⟩
        (.unary ⟨.minus, "-"⟩ .negate (.reference ⟨⟨.ident, "a"⟩, "a"⟩)) .mul
        (.integer ⟨.int, "007"⟩ ⟨7, by decide, by decide⟩))),
    .result ⟨.kwReturn, "return"⟩ none,
    .expression ⟨.bang, "!"⟩ (.binary ⟨.eq, "=="⟩
      (.unary ⟨.bang, "!"⟩ .not (.reference ⟨⟨.ident, "x"⟩, "x"⟩)) .equal
      (.reference ⟨⟨.ident, "y"⟩, "y"⟩)),
    .expression ⟨.lparen, "("⟩ (.reference ⟨⟨.ident, "z"⟩, "z"⟩)]⟩

/-- Its numeral keeps the zeros, and its last statement loses the parentheses. -/
theorem Program.ofSource_render_mixed :
    Program.ofSource "let x = -a * 007; return; !x == (y) (z)" = .ok .mixed ∧
      Program.mixed.render = "let x = ((-a) * 007);return;((!x) == y)z" ∧
      ∃ again : Program, Program.ofSource Program.mixed.render = .ok again ∧
        List.Forall₂ Stmt.Alike Program.mixed.statements again.statements ∧
        again.render = Program.mixed.render := by
  have hsource : Program.ofSource "let x = -a * 007; return; !x == (y) (z)" = .ok .mixed := by
    decide +kernel
  refine ⟨hsource, by decide +kernel, Program.ofSource_render hsource (by decide +kernel) ?_⟩
  intro token value hmem
  simp only [Program.mixed, List.dropLast_cons_cons, List.dropLast_singleton, List.mem_cons,
    List.not_mem_nil, or_false] at hmem
  rcases hmem with hmem | hmem | hmem
  · cases hmem
  · cases hmem
  · obtain ⟨-, rfl⟩ := Stmt.expression.inj hmem
    rfl

end Treewalk
