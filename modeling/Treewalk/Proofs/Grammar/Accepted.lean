import Treewalk.Parser
import Treewalk.Proofs.Grammar.Boundary

/-!
# What the grammar derives is read

Under the rules of the language every separated derivation is read without a diagnostic, as the
tree it denotes. A phrase is read by following its leftmost path: `Phrase.Passes` says that the
reader arrives behind the phrase with its tree in hand, as it would have behind any one operand,
and it is this form that carries over from a chain of operators to its next link.
-/

namespace Treewalk

namespace Reading

variable {α β : Type}

/-- The reading of `tokens` without a diagnostic, at rest on the last of them. -/
def spanning (tokens : List Token) (value : α) : Reading (Option α) :=
  ⟨some value, tokens.length - 1, []⟩

/-- Without a diagnostic, reading on is the next reading seen from earlier. -/
theorem andThen_some (value : α) (moves : Nat) (next : α → Nat → Reading (Option β)) :
    (⟨some value, moves, []⟩ : Reading (Option α)).andThen next =
      (next value moves).shift moves := rfl

theorem shift_spanning {tokens : List Token} (h : tokens ≠ []) (value : α) :
    (spanning tokens value).shift 1 = ⟨some value, tokens.length, []⟩ := by
  have hpos := List.length_pos_iff.mpr h
  simp only [spanning, shift, Nat.add_sub_cancel' hpos]

theorem shift_shift (m n : Nat) (r : Reading α) : (r.shift m).shift n = r.shift (n + m) := by
  simp only [shift, Nat.add_assoc]

end Reading

namespace Grammar

open Rules Reading

/-- The position on the last of some tokens, whatever is behind them. -/
theorem exists_drop_eq {tokens : List Token} (h : tokens ≠ []) :
    ∃ last, ∀ rest, (tokens ++ rest).drop (tokens.length - 1) = last :: rest := by
  obtain ⟨init, last, rfl⟩ : ∃ init last, tokens = init ++ [last] :=
    ⟨_, _, (List.dropLast_concat_getLast h).symm⟩
  exact ⟨last, fun rest => by simp⟩

variable {floor : Strength} {rest : List Token}

/-! ## Expressions -/

/-- Reading ends where no operator that binds tighter than `floor` comes next. -/
theorem readMore_of_stops (h : Stops floor (Token.next rest).kind) (left : Expr) (last : Token) :
    standard.readMore floor left (last :: rest) = .done (some left) := by
  rw [readMore.eq_def]
  split
  · rename_i t next heq
    obtain ⟨-, rfl⟩ := List.cons.inj heq
    split
    · rename_i hlt
      cases hop : BinaryOp.ofKind? t.kind with
      | none => simp only [standard, standardJoining, hop, Option.map_none]
      | some op => exact absurd (h op hop) (Nat.not_le.mpr hlt)
    · rfl
  · rfl

/-- Otherwise the operator takes its right operand, and reading goes on with the whole. -/
theorem readMore_of_operator {t : Token} {op : BinaryOp} (hop : BinaryOp.ofKind? t.kind = some op)
    (hlt : floor < t.kind.strength) (left : Expr) (last : Token) (next : List Token) :
    standard.readMore floor left (last :: t :: next) =
      ((((standard.readExpr t.kind.strength next).shift 1).map
        (Option.map (.binary t left op))).andThen fun whole m =>
          standard.readMore floor whole ((t :: next).drop m)).shift 1 := by
  have hjoin : standard.joining t.kind = some (.binary op) := by
    simp only [standard, standardJoining, hop, Option.map_some]
  rw [readMore, if_pos hlt, hjoin]
  simp only [readJoined]

/-- The reader of expressions gets behind a phrase with its tree in hand, from where it may go on. -/
def Phrase.Passes {level : Level} (p : Phrase level) : Prop :=
  ∀ (floor : Strength) (rest : List Token), (Level.above floor).strength ≤ level.strength →
    Stops level.strength (Token.next rest).kind → (Token.next rest).kind ≠ .kwElse →
    standard.readExpr floor (p.tokens ++ rest) =
      (standard.readMore floor p.tree ((p.tokens ++ rest).drop (p.tokens.length - 1))).shift
        (p.tokens.length - 1)

variable {level : Level}

/-- It is through where what follows the phrase does not continue it. -/
theorem Phrase.Passes.readExpr_eq {p : Phrase level} (h : p.Passes)
    (hle : (Level.above floor).strength ≤ level.strength)
    (hstop : Stops floor (Token.next rest).kind) (helse : (Token.next rest).kind ≠ .kwElse) :
    standard.readExpr floor (p.tokens ++ rest) = spanning p.tokens p.tree := by
  obtain ⟨last, hlast⟩ := exists_drop_eq p.tokens_ne_nil
  rw [h floor rest hle (hstop.of_above hle) helse, hlast, readMore_of_stops hstop]
  rfl

/-- A phrase that is an operand to the reader is passed. -/
theorem Phrase.passes_of_readOperand {p : Phrase level}
    (h : ∀ rest, (Token.next rest).kind ≠ .kwElse →
      standard.readOperand (p.tokens ++ rest) = spanning p.tokens p.tree) : p.Passes := by
  intro floor rest _ _ helse
  rw [readExpr, h rest helse, spanning, andThen_some]

theorem Phrase.passes_operand {inner : Phrase level.operand} (bound : level ≠ .primary)
    (h : inner.Passes) : (Phrase.operand inner bound).Passes := by
  intro floor rest hle hstop helse
  have hle' := level.strength_le_operand
  exact h floor rest (Nat.le_trans hle hle') (hstop.mono hle') helse

/-- **The link of a chain.** The left side is passed, its operator binds tighter than `floor`, and
the right side ends where the whole does, so the reader stands behind the whole. -/
theorem Phrase.passes_joined {left : Phrase level} {sign : Token} {op : BinaryOp}
    (spells : level.operator? sign.kind = some op) {right : Phrase level.operand}
    (hleft : left.Passes) (hright : right.Passes) :
    (Phrase.joined left sign op spells right).Passes := by
  intro floor rest hle hstop helse
  have hop := Level.ofKind?_of_operator spells
  have hstrength := Level.strength_of_operator spells
  have hlt : floor < sign.kind.strength := hstrength ▸ Level.lt_of_operator spells hle
  have hsign : sign.kind ≠ .kwElse := by
    intro h
    rw [h] at hop
    cases hop
  -- the left side ends at `sign`, which binds no tighter than its own layer
  have hl := hleft floor (sign :: (right.tokens ++ rest)) hle
    (fun _ _ => Nat.le_of_eq (congrArg Strength.rank hstrength)) hsign
  -- the right side is read above `sign`, so all of it belongs to the layer of operands
  have hr : standard.readExpr sign.kind.strength (right.tokens ++ rest) =
      spanning right.tokens right.tree := by
    refine hright.readExpr_eq ?_ (hstrength ▸ hstop) helse
    rw [hstrength, Level.operand_eq_above spells]
    exact Nat.le_refl _
  obtain ⟨last, hlast⟩ := exists_drop_eq left.tokens_ne_nil
  rw [hlast, readMore_of_operator hop hlt, hr] at hl
  have htokens : (Phrase.joined left sign op spells right).tokens ++ rest =
      left.tokens ++ sign :: (right.tokens ++ rest) := by
    simp [Phrase.tokens]
  have hlen : (Phrase.joined left sign op spells right).tokens.length - 1 =
      left.tokens.length + (1 + (right.tokens.length - 1)) := by
    have hpos := List.length_pos_iff.mpr right.tokens_ne_nil
    simp only [Phrase.tokens, List.length_append, List.length_cons]
    omega
  have hpos := List.length_pos_iff.mpr left.tokens_ne_nil
  have hoperand : ((spanning right.tokens right.tree).shift 1).map
      (Option.map (Expr.binary sign left.tree op)) =
        ⟨some (Expr.binary sign left.tree op right.tree), 1 + (right.tokens.length - 1), []⟩ := rfl
  rw [htokens, hl, hlen, List.drop_length_add_append, hoperand, andThen_some, shift_shift,
    shift_shift]
  congr 1
  omega

/-! ## Operands -/

/-- An operand of one token. -/
theorem readOperand_of_atom {t : Token} {a : Atom} {e : Expr}
    (hopen : standardOpening t.kind = some (.atom a)) (hread : a.read t = (some e, []))
    (rest : List Token) : standard.readOperand (t :: rest) = spanning [t] e := by
  have hopen' : standard.opening t.kind = some (.atom a) := hopen
  rw [readOperand, hopen']
  simp only [hread]
  rfl

theorem readOperand_name (token : Of .ident) (rest : List Token) :
    standard.readOperand (token.val :: rest) =
      spanning [token.val] (.reference ⟨token.val, token.val.literal⟩) := by
  refine readOperand_of_atom (a := .name) ?_ rfl rest
  rw [token.property]
  rfl

theorem readOperand_numeral (token : Of .int) {value : Integer}
    (spells : Integer.ofText? token.val.literal = some value) (rest : List Token) :
    standard.readOperand (token.val :: rest) = spanning [token.val] (.integer token.val value) := by
  refine readOperand_of_atom (a := .integer) ?_ ?_ rest
  · rw [token.property]; rfl
  · simp only [Atom.read, spells]

theorem readOperand_truth (token : Of .kwTrue) (rest : List Token) :
    standard.readOperand (token.val :: rest) = spanning [token.val] (.boolean token.val true) := by
  refine readOperand_of_atom (a := .boolean) ?_ ?_ rest
  · rw [token.property]; rfl
  · simp only [Atom.read, token.property, decide_true]

theorem readOperand_falsity (token : Of .kwFalse) (rest : List Token) :
    standard.readOperand (token.val :: rest) =
      spanning [token.val] (.boolean token.val false) := by
  refine readOperand_of_atom (a := .boolean) ?_ ?_ rest
  · rw [token.property]; rfl
  · simp only [Atom.read, token.property, reduceCtorEq, decide_false]

/-- An operator in front of its operand, as the reader finds it. -/
theorem readOperand_of_readExpr {sign : Token} {op : UnaryOp}
    (spells : UnaryOp.ofKind? sign.kind = some op) {tokens : List Token} {e : Expr}
    (hne : tokens ≠ []) (h : standard.readExpr .unary (tokens ++ rest) = spanning tokens e) :
    standard.readOperand (sign :: (tokens ++ rest)) =
      spanning (sign :: tokens) (.unary sign op e) := by
  have hopen : standard.opening sign.kind = some (.unary op) := by
    unfold UnaryOp.ofKind? at spells
    split at spells
    · rename_i hkind; rw [hkind, ← Option.some.inj spells]; rfl
    · rename_i hkind; rw [hkind, ← Option.some.inj spells]; rfl
    · cases spells
  rw [readOperand, hopen]
  simp only [h, shift_spanning hne]
  rfl

/-- Nothing continues the operand of an operator in front of it. -/
theorem Phrase.passes_operated {sign : Token} {op : UnaryOp}
    (spells : UnaryOp.ofKind? sign.kind = some op) {inner : Phrase .unary} (h : inner.Passes) :
    (Phrase.operated sign op spells inner).Passes :=
  passes_of_readOperand fun _ helse =>
    readOperand_of_readExpr spells inner.tokens_ne_nil
      (h.readExpr_eq (by decide) (stops_unary _) helse)

/-- A phrase in parentheses, behind the opening one. -/
theorem Phrase.Passes.readGroup_eq {inner : Phrase .equality} (h : inner.Passes)
    (closing : Of .rparen) (rest : List Token) :
    standard.readGroup (inner.tokens ++ closing.val :: rest) =
      ⟨some inner.tree, inner.tokens.length + 1, []⟩ := by
  have hkind : (Token.next (closing.val :: rest)).kind = .rparen := closing.property
  have hinner : standard.readExpr .lowest (inner.tokens ++ closing.val :: rest) =
      spanning inner.tokens inner.tree := by
    refine h.readExpr_eq (by decide) (stops_of_ofKind?_eq_none ?_) ?_
    · rw [hkind]; rfl
    · rw [hkind]; decide
  rw [readGroup, hinner, shift_spanning inner.tokens_ne_nil, andThen_some,
    List.drop_append_length, expect_cons closing.property]
  rfl

/-- The reader of blocks reads one that comes next. -/
def Braces.IsRead (b : Braces) : Prop :=
  ∀ rest, standard.readBranch (b.tokens ++ rest) = ⟨some b.tree, b.tokens.length, []⟩

/-- A choice up to the end of its first block. -/
theorem readConditional_eq {sign : Token} {opening : Of .lparen} {condition : Phrase .equality}
    {closing : Of .rparen} {consequence : Braces} (hcond : condition.Passes)
    (hcons : consequence.IsRead) (rest : List Token) :
    standard.readConditional sign
        (opening.val :: (condition.tokens ++ closing.val :: (consequence.tokens ++ rest))) =
      (if (Token.next rest).kind = .kwElse then
          ((standard.readBranch (rest.drop 1)).shift 1).map (Option.map fun alternative =>
            .conditional sign condition.tree consequence.tree (some alternative))
        else .done (some (.conditional sign condition.tree consequence.tree none))).shift
          (condition.tokens.length + consequence.tokens.length + 2) := by
  -- the reader counts on from the condition, so the second block is looked for from there
  have hback : ∀ n, (condition.tokens ++ closing.val :: (consequence.tokens ++ rest)).drop
      (condition.tokens.length + 1 + consequence.tokens.length + n) = rest.drop n := by
    intro n
    have hn : condition.tokens.length + 1 + consequence.tokens.length + n =
        condition.tokens.length + (consequence.tokens.length + n + 1) := by omega
    rw [hn, List.drop_length_add_append, List.drop_succ_cons, List.drop_length_add_append]
  have hlen : 1 + (condition.tokens.length + 1) + consequence.tokens.length =
      condition.tokens.length + consequence.tokens.length + 2 := by omega
  rw [readConditional, expect_cons opening.property, andThen_some]
  simp only [List.drop_succ_cons, List.drop_zero]
  rw [hcond.readGroup_eq, andThen_some, List.drop_length_add_append]
  simp only [List.drop_succ_cons, List.drop_zero]
  rw [hcons, andThen_some, shift_shift, shift_shift]
  have hend := hback 0
  rw [Nat.add_zero, List.drop_zero] at hend
  rw [hend, hback 1, hlen]

theorem Phrase.readOperand_group {opening : Of .lparen} {inner : Phrase .equality}
    {closing : Of .rparen} (h : inner.Passes) (rest : List Token) :
    standard.readOperand ((Phrase.group opening inner closing).tokens ++ rest) =
      spanning (Phrase.group opening inner closing).tokens inner.tree := by
  have hopen : standard.opening opening.val.kind = some .group := by rw [opening.property]; rfl
  have hlen : inner.tokens.length + 1 =
      (Phrase.group opening inner closing).tokens.length - 1 := by
    simp [Phrase.tokens]
  simp only [Phrase.tokens, List.cons_append, List.append_assoc, List.nil_append]
  rw [readOperand, hopen]
  simp only [h.readGroup_eq, hlen]
  rfl

/-- A choice without a second block is not taken for one that has it. -/
theorem Phrase.readOperand_choice {sign : Of .kwIf} {opening : Of .lparen}
    {condition : Phrase .equality} {closing : Of .rparen} {consequence : Braces}
    (hcond : condition.Passes) (hcons : consequence.IsRead)
    (helse : (Token.next rest).kind ≠ .kwElse) :
    standard.readOperand
        ((Phrase.choice sign opening condition closing consequence).tokens ++ rest) =
      spanning (Phrase.choice sign opening condition closing consequence).tokens
        (.conditional sign.val condition.tree consequence.tree none) := by
  have hopen : standard.opening sign.val.kind = some .conditional := by rw [sign.property]; rfl
  have hlen : condition.tokens.length + consequence.tokens.length + 2 =
      (Phrase.choice sign opening condition closing consequence).tokens.length - 1 := by
    simp only [Phrase.tokens, List.length_cons, List.length_append]
    omega
  simp only [Phrase.tokens, List.cons_append, List.append_assoc]
  rw [readOperand, hopen]
  simp only [readConditional_eq hcond hcons, if_neg helse, hlen]
  rfl

theorem Phrase.readOperand_choiceElse {sign : Of .kwIf} {opening : Of .lparen}
    {condition : Phrase .equality} {closing : Of .rparen} {consequence : Braces}
    {otherwise : Of .kwElse} {alternative : Braces} (hcond : condition.Passes)
    (hcons : consequence.IsRead) (halt : alternative.IsRead) (rest : List Token) :
    standard.readOperand ((Phrase.choiceElse sign opening condition closing consequence otherwise
        alternative).tokens ++ rest) =
      spanning (Phrase.choiceElse sign opening condition closing consequence otherwise
          alternative).tokens
        (.conditional sign.val condition.tree consequence.tree (some alternative.tree)) := by
  have hopen : standard.opening sign.val.kind = some .conditional := by rw [sign.property]; rfl
  have hlen : condition.tokens.length + consequence.tokens.length + 2 +
      (1 + alternative.tokens.length) = (Phrase.choiceElse sign opening condition closing
        consequence otherwise alternative).tokens.length - 1 := by
    simp only [Phrase.tokens, List.length_cons, List.length_append]
    omega
  simp only [Phrase.tokens, List.cons_append, List.append_assoc]
  rw [readOperand, hopen]
  simp only [readConditional_eq hcond hcons, Token.next_cons, otherwise.property, if_true,
    List.drop_succ_cons, List.drop_zero, halt rest, shift, map, hlen]
  rfl

/-! ## Statements -/

/-- The reader of statements reads one that settles at the next token. -/
def Sentence.IsRead (s : Sentence) : Prop :=
  ∀ (t : Token) (next rest : List Token), s.tokens = t :: next →
    s.Settles (Token.next rest).kind → (Token.next rest).kind ≠ .kwElse →
    standard.readStmt t (next ++ rest) = spanning s.tokens s.tree

/-- The reader of statements up to a closing brace reads a sequence in front of one. -/
def Passage.IsRead (p : Passage) : Prop :=
  ∀ rest, (Token.next rest).kind = .rbrace →
    standard.readBody (p.tokens ++ rest) = ⟨p.trees, p.tokens.length, []⟩

/-- An expression at the end of a statement, with the semicolon behind it if there is one. -/
theorem Phrase.Passes.readExpr_stop {value : Phrase .equality} (h : value.Passes)
    (stop : Option (Of .semicolon))
    (hstop : stop = none → BinaryOp.ofKind? (Token.next rest).kind = none ∧
      (Token.next rest).kind ≠ .semicolon)
    (helse : (Token.next rest).kind ≠ .kwElse) :
    standard.readExpr .lowest (value.tokens ++ (stopTokens stop ++ rest)) =
        spanning value.tokens value.tree ∧
      separator (stopTokens stop ++ rest) = (stopTokens stop).length := by
  cases stop with
  | none =>
    refine ⟨h.readExpr_eq (by decide) (stops_of_ofKind?_eq_none (hstop rfl).1) helse, ?_⟩
    exact if_neg (hstop rfl).2
  | some semicolon =>
    have hkind : (Token.next (stopTokens (some semicolon) ++ rest)).kind = .semicolon :=
      semicolon.property
    refine ⟨h.readExpr_eq (by decide) (stops_of_ofKind?_eq_none ?_) ?_, if_pos hkind⟩
    · rw [hkind]; rfl
    · rw [hkind]; decide

theorem Sentence.isRead_binding {sign : Of .kwLet} {name : Of .ident} {assign : Of .assign}
    {value : Phrase .equality} {stop : Option (Of .semicolon)} (h : value.Passes) :
    (Sentence.binding sign name assign value stop).IsRead := by
  intro t next rest htokens hsettles helse
  obtain ⟨rfl, rfl⟩ := List.cons.inj htokens
  have hlen : 1 + (1 + (value.tokens.length + (stopTokens stop).length)) =
      (Sentence.binding sign name assign value stop).tokens.length - 1 := by
    simp only [Sentence.tokens, List.length_cons, List.length_append]
    omega
  obtain ⟨hread, hsep⟩ := h.readExpr_stop stop (by rintro rfl; exact hsettles) helse
  simp only [List.cons_append, List.append_assoc]
  rw [readStmt, if_pos sign.property, readBinding, expect_cons name.property, andThen_some]
  simp only [List.drop_succ_cons, List.drop_zero]
  rw [expect_cons assign.property, andThen_some]
  simp only [hread, shift_spanning value.tokens_ne_nil, List.drop_append_length, hsep]
  simp only [shift, hlen]
  rfl

theorem Sentence.isRead_result {sign : Of .kwReturn} {value : Phrase .equality}
    {stop : Option (Of .semicolon)} (h : value.Passes) :
    (Sentence.result sign value stop).IsRead := by
  intro t next rest htokens hsettles helse
  obtain ⟨rfl, rfl⟩ := List.cons.inj htokens
  obtain ⟨hread, hsep⟩ := h.readExpr_stop stop (by rintro rfl; exact hsettles) helse
  have hlet : sign.val.kind ≠ .kwLet := by rw [sign.property]; decide
  -- the value begins with a token that opens an expression, so it is not taken for a missing one
  obtain ⟨first, others, hfirst, hopen⟩ := value.exists_tokens_eq
  have hnext : Token.next (value.tokens ++ (stopTokens stop ++ rest)) = first := by
    rw [hfirst]; rfl
  have hne := Begins.ne (.inr (.inr hopen))
  simp only [List.append_assoc]
  rw [readStmt, if_neg hlet, if_pos sign.property, readResult, hnext, if_neg hne.2.2.1,
    if_neg (not_or.mpr ⟨hne.1, hne.2.1⟩)]
  simp only [hread, shift_spanning value.tokens_ne_nil, List.drop_append_length, hsep]
  rw [← List.length_append]
  rfl

theorem Sentence.isRead_bare {sign : Of .kwReturn} {stop : Option (Of .semicolon)} :
    (Sentence.bare sign stop).IsRead := by
  intro t next rest htokens hsettles _
  obtain ⟨rfl, rfl⟩ := List.cons.inj htokens
  have hlet : sign.val.kind ≠ .kwLet := by rw [sign.property]; decide
  rw [readStmt, if_neg hlet, if_pos sign.property, readResult]
  cases stop with
  | none =>
    have hcloses : Closes (Token.next (stopTokens none ++ rest)).kind := hsettles
    have hne := hcloses.ne.1
    unfold Closes at hcloses
    rw [if_neg hne, if_pos hcloses]
    rfl
  | some semicolon =>
    have hkind : (Token.next (stopTokens (some semicolon) ++ rest)).kind = .semicolon :=
      semicolon.property
    rw [if_pos hkind]
    rfl

theorem Sentence.isRead_expression {value : Phrase .equality} {stop : Option (Of .semicolon)}
    (h : value.Passes) : (Sentence.expression value stop).IsRead := by
  intro t next rest htokens hsettles helse
  obtain ⟨hread, hsep⟩ := h.readExpr_stop stop (by rintro rfl; exact hsettles) helse
  obtain ⟨first, others, hfirst, hopen⟩ := value.exists_tokens_eq
  have hlet : first.kind ≠ .kwLet := by intro hkind; rw [hkind] at hopen; cases hopen
  have hreturn : first.kind ≠ .kwReturn := by intro hkind; rw [hkind] at hopen; cases hopen
  rw [Sentence.tokens, hfirst, List.cons_append] at htokens
  obtain ⟨rfl, rfl⟩ := List.cons.inj htokens
  rw [hfirst, List.cons_append] at hread
  have hlen : others.length + (stopTokens stop).length =
      (Sentence.expression value stop).tokens.length - 1 := by
    simp [Sentence.tokens, hfirst]
  rw [readStmt, if_neg hlet, if_neg hreturn, List.append_assoc, hread]
  simp only [spanning, andThen_some, List.length_cons, Nat.add_sub_cancel, List.drop_append_length,
    hsep, shift, hlen, Sentence.tree, hfirst, Token.next_cons]

/-! ## Sequences and blocks -/

/-- **One turn of a loop over statements**, whatever the loop does with the rest. -/
theorem Sentence.IsRead.followedBy_eq {s : Sentence} (h : s.IsRead) {t : Token}
    {next : List Token} (htokens : s.tokens = t :: next)
    (hsettles : s.Settles (Token.next rest).kind) (helse : (Token.next rest).kind ≠ .kwElse)
    (loop : List Token → Reading (List Stmt)) :
    ((standard.readStmt t (next ++ rest)).followedBy fun m => loop ((next ++ rest).drop m)) =
      ⟨s.tree :: (loop rest).value, s.tokens.length + (loop rest).moves,
        (loop rest).diagnostics⟩ := by
  rw [h t next rest htokens hsettles helse, htokens]
  simp only [followedBy, spanning, List.length_cons, Nat.add_sub_cancel, List.drop_append_length,
    Option.toList_some, List.cons_append, List.nil_append]

theorem Passage.isRead_nil : Passage.nil.IsRead := by
  intro rest hrest
  cases rest with
  | nil => cases hrest
  | cons t next =>
    have hkind : t.kind = .rbrace := hrest
    simp only [Passage.tokens, List.nil_append]
    rw [readBody, if_pos hkind]
    rfl

theorem Passage.isRead_cons {first : Sentence} {others : Passage} (hfirst : first.IsRead)
    (hothers : others.IsRead) (hprecede : first.MayPrecede others) :
    (Passage.cons first others).IsRead := by
  intro rest hrest
  have hcloses : Closes (Token.next rest).kind := .inl hrest
  obtain ⟨t, next, htokens, hbegins⟩ := first.exists_tokens_eq
  have hturn := hfirst.followedBy_eq htokens
    ((first.mayPrecede_iff others hcloses).mp hprecede) (others.next_ne_else hcloses)
    standard.readBody
  rw [hothers rest hrest] at hturn
  simp only [Passage.tokens, List.append_assoc]
  rw [htokens, List.cons_append, readBody, if_neg hbegins.ne.1, if_neg hbegins.ne.2.1, hturn,
    htokens]
  simp only [Passage.trees, List.length_append, List.length_cons]

theorem Braces.isRead_mk {opening : Of .lbrace} {body : Passage} {closing : Of .rbrace}
    (h : body.IsRead) : (Braces.mk opening body closing).IsRead := by
  intro rest
  have hlen : 1 + (1 + body.tokens.length) = (Braces.mk opening body closing).tokens.length := by
    simp only [Braces.tokens, List.length_cons, List.length_append, List.length_nil]
    omega
  simp only [Braces.tokens, List.cons_append, List.append_assoc, List.nil_append]
  rw [readBranch, expect_cons opening.property, andThen_some]
  simp only [List.drop_succ_cons, List.drop_zero, h (closing.val :: rest) closing.property, shift,
    map, hlen]
  rfl

/-! ## Every derivation -/

mutual

theorem Phrase.passes : ∀ {level : Level} (p : Phrase level), p.Separated → p.Passes
  | _, .operand inner bound, h => Phrase.passes_operand bound (inner.passes h)
  | _, .joined left _ _ spells right, h =>
    Phrase.passes_joined spells (left.passes h.1) (right.passes h.2)
  | _, .operated _ _ spells inner, h => Phrase.passes_operated spells (inner.passes h)
  | _, .name token, _ =>
    Phrase.passes_of_readOperand fun rest _ => readOperand_name token rest
  | _, .numeral token _ spells, _ =>
    Phrase.passes_of_readOperand fun rest _ => readOperand_numeral token spells rest
  | _, .truth token, _ =>
    Phrase.passes_of_readOperand fun rest _ => readOperand_truth token rest
  | _, .falsity token, _ =>
    Phrase.passes_of_readOperand fun rest _ => readOperand_falsity token rest
  | _, .group _ inner _, h =>
    Phrase.passes_of_readOperand fun rest _ => Phrase.readOperand_group (inner.passes h) rest
  | _, .choice _ _ condition _ consequence, h =>
    Phrase.passes_of_readOperand fun _ helse =>
      Phrase.readOperand_choice (condition.passes h.1) (consequence.isRead h.2) helse
  | _, .choiceElse _ _ condition _ consequence _ alternative, h =>
    Phrase.passes_of_readOperand fun rest _ =>
      Phrase.readOperand_choiceElse (condition.passes h.1) (consequence.isRead h.2.1)
        (alternative.isRead h.2.2) rest

theorem Braces.isRead : ∀ b : Braces, b.Separated → b.IsRead
  | .mk _ body _, h => Braces.isRead_mk (body.isRead h)

theorem Sentence.isRead : ∀ s : Sentence, s.Separated → s.IsRead
  | .binding _ _ _ value _, h => Sentence.isRead_binding (value.passes h)
  | .result _ value _, h => Sentence.isRead_result (value.passes h)
  | .bare _ _, _ => Sentence.isRead_bare
  | .expression value _, h => Sentence.isRead_expression (value.passes h)

theorem Passage.isRead : ∀ p : Passage, p.Separated → p.IsRead
  | .nil, _ => Passage.isRead_nil
  | .cons first others, h =>
    Passage.isRead_cons (first.isRead h.1) (others.isRead h.2.2) h.2.1

end

/-- At the end of input there is nothing to read. -/
theorem readProgram_of_eof (h : (Token.next rest).kind = .eof) :
    standard.readProgram rest = .done [] := by
  cases rest with
  | nil => rw [readProgram]
  | cons t next =>
    have hkind : t.kind = .eof := h
    rw [readProgram, if_pos hkind]

/-- **A separated passage is read as a program**, up to the end of input behind it. -/
theorem Passage.readProgram_tokens {rest : List Token} (hrest : (Token.next rest).kind = .eof) :
    ∀ p : Passage, p.Separated →
      standard.readProgram (p.tokens ++ rest) = ⟨p.trees, p.tokens.length, []⟩
  | .nil, _ => readProgram_of_eof hrest
  | .cons first others, h => by
    have hcloses : Closes (Token.next rest).kind := .inr hrest
    obtain ⟨t, next, htokens, hbegins⟩ := first.exists_tokens_eq
    have hturn := (first.isRead h.1).followedBy_eq htokens
      ((first.mayPrecede_iff others hcloses).mp h.2.1) (others.next_ne_else hcloses)
      standard.readProgram
    rw [Passage.readProgram_tokens hrest others h.2.2] at hturn
    simp only [Passage.tokens, List.append_assoc]
    rw [htokens, List.cons_append, readProgram, if_neg hbegins.ne.2.1, hturn, htokens]
    simp only [Passage.trees, List.length_append, List.length_cons]

/-- **Whatever has a separated derivation is accepted**, without a diagnostic and as the program
that the derivation denotes, every token of the tree included. -/
theorem program_of_derivation (passage : Passage) (h : passage.Separated) :
    (Parser.ofTokens passage.tokens).program.1 = passage.program ∧
      (Parser.ofTokens passage.tokens).program.2.diagnostics = [] := by
  have hread : standard.readProgram passage.tokens = ⟨passage.trees, passage.tokens.length, []⟩ := by
    have hnil : (Token.next []).kind = .eof := rfl
    have hread := Passage.readProgram_tokens hnil passage h
    rwa [List.append_nil] at hread
  simp only [Parser.program, Parser.ofTokens, Parser.settle, hread]
  exact ⟨rfl, rfl⟩

/-- Two statements side by side, the second of which is in parentheses: `a (b)`. -/
def juxtaposed : Passage :=
  .cons (.expression (.ofPrimary (.name ⟨⟨.ident, "a"⟩, rfl⟩)) none)
    (.cons (.expression (.ofPrimary (.group ⟨⟨.lparen, "("⟩, rfl⟩
      (.ofPrimary (.name ⟨⟨.ident, "b"⟩, rfl⟩)) ⟨⟨.rparen, ")"⟩, rfl⟩)) none) .nil)

/-- They are two statements to the parser too, and the second keeps its parenthesis. -/
theorem program_juxtaposed :
    juxtaposed.Separated ∧
      (Parser.ofTokens [⟨.ident, "a"⟩, ⟨.lparen, "("⟩, ⟨.ident, "b"⟩, ⟨.rparen, ")"⟩]).program.1 =
        ⟨[.expression ⟨.ident, "a"⟩ (.reference ⟨⟨.ident, "a"⟩, "a"⟩),
          .expression ⟨.lparen, "("⟩ (.reference ⟨⟨.ident, "b"⟩, "b"⟩)]⟩ ∧
      (Parser.ofTokens juxtaposed.tokens).program.2.diagnostics = [] := by
  have h : juxtaposed.Separated := ⟨trivial, nofun, trivial, nofun, trivial⟩
  exact ⟨h, program_of_derivation juxtaposed h⟩

end Grammar

end Treewalk
