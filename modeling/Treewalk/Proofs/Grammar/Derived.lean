import Treewalk.Tree.Equality
import Treewalk.Proofs.Grammar.Accepted

/-!
# What is read is derived

The converse of acceptance: whatever is read without a diagnostic under the rules of the language
has a derivation, of exactly the tokens that were read. A reader that gives up leaves a diagnostic
behind, so without one every reader has gone all the way, and comes to rest on the last token of
its derivation.

For the loop over operators the invariant has two sides. The expression so far belongs to a layer,
and the operator that comes next binds no tighter than that layer's: this is what the right operand
before it has left, having been read above its own operator.
-/

namespace Treewalk

namespace Reading

variable {α β : Type}

/-- If all was read without a diagnostic, so was the first part. -/
theorem diagnostics_of_andThen {r : Reading (Option α)} {next : α → Nat → Reading (Option β)}
    (h : (r.andThen next).diagnostics = []) : r.diagnostics = [] := by
  cases hr : r.value with
  | none => rwa [andThen_of_none hr] at h
  | some a =>
    rw [andThen_of_some hr] at h
    exact (List.append_eq_nil_iff.mp h).1

theorem shift_eq_spanning {tokens : List Token} (h : tokens ≠ []) (more : List Token) (value : α) :
    (⟨some value, more.length, []⟩ : Reading (Option α)).shift (tokens.length - 1) =
      spanning (tokens ++ more) value := by
  have hpos := List.length_pos_iff.mpr h
  simp only [shift, spanning, List.length_append, mk.injEq, true_and, and_true]
  omega

end Reading

/-- An expected token is there, unless there is a diagnostic. -/
theorem exists_of_expect {kind : Token.Kind} {next : List Token} (hkind : kind ≠ .eof)
    (h : (expect kind next).diagnostics = []) :
    ∃ (t : Grammar.Of kind) (rest : List Token), next = t.val :: rest := by
  by_cases hnext : (Token.next next).kind = kind
  · cases next with
    | nil => exact absurd hnext.symm hkind
    | cons t rest => exact ⟨⟨t, hnext⟩, rest, rfl⟩
  · rw [expect_of_ne hnext] at h
    cases h

namespace Grammar

open Rules Reading

/-! ## Expressions of a layer -/

/-- The tokens have a separated derivation as an expression of a layer. -/
def Spells (level : Level) (tokens : List Token) (e : Expr) : Prop :=
  ∃ p : Phrase level, p.Separated ∧ p.tokens = tokens ∧ p.tree = e

variable {level : Level} {tokens : List Token} {e : Expr}

theorem Spells.tokens_ne_nil (h : Spells level tokens e) : tokens ≠ [] := by
  obtain ⟨p, -, rfl, -⟩ := h
  exact p.tokens_ne_nil

/-- An operand on its own is an expression of the layer of operands. -/
theorem Spells.of_primary (p : Phrase .primary) (h : p.Separated) :
    Spells .unary p.tokens p.tree :=
  ⟨.operand p nofun, h, rfl, rfl⟩

theorem Spells.operand (bound : level ≠ .primary) (h : Spells level.operand tokens e) :
    Spells level tokens e := by
  obtain ⟨p, hsep, htokens, htree⟩ := h
  exact ⟨.operand p bound, hsep, htokens, htree⟩

/-- **An expression of a layer belongs to every looser one.** -/
theorem Spells.loosen {inner : Level} (h : Spells inner tokens e) {level : Level}
    (hle : level.strength ≤ inner.strength) : Spells level tokens e := by
  by_cases heq : level = inner
  · exact heq ▸ h
  · have hstep : level ≠ .primary ∧ level.operand.strength ≤ inner.strength := by
      revert hle heq
      cases level <;> cases inner <;> decide
    exact .operand hstep.1 (h.loosen hstep.2)
termination_by 6 - level.strength.rank
decreasing_by
  obtain ⟨hne, -⟩ := hstep
  revert hne
  cases level <;> decide

theorem Spells.joined {left right : List Token} {l r : Expr} {sign : Token} {op : BinaryOp}
    (spells : level.operator? sign.kind = some op) (hl : Spells level left l)
    (hr : Spells level.operand right r) :
    Spells level (left ++ sign :: right) (.binary sign l op r) := by
  obtain ⟨p, hp, rfl, rfl⟩ := hl
  obtain ⟨q, hq, rfl, rfl⟩ := hr
  exact ⟨.joined p sign op spells q, ⟨hp, hq⟩, rfl, rfl⟩

theorem Spells.operated {sign : Token} {op : UnaryOp}
    (spells : UnaryOp.ofKind? sign.kind = some op) (h : Spells .unary tokens e) :
    Spells .unary (sign :: tokens) (.unary sign op e) := by
  obtain ⟨p, hp, rfl, rfl⟩ := h
  exact ⟨.operated sign op spells p, hp, rfl, rfl⟩

/-- What does not end an expression is an operator that binds tighter. -/
theorem exists_of_not_stops {floor : Strength} {rest : List Token}
    (h : ¬Stops floor (Token.next rest).kind) :
    ∃ t next op, rest = t :: next ∧ BinaryOp.ofKind? t.kind = some op ∧
      floor < t.kind.strength := by
  cases rest with
  | nil => exact absurd (stops_of_ofKind?_eq_none rfl) h
  | cons t next =>
    simp only [Stops, Classical.not_forall, Token.next_cons] at h
    obtain ⟨op, hop, hlt⟩ := h
    exact ⟨t, next, op, rfl, hop, Nat.not_le.mp hlt⟩

/-- What the kinds that open an expression are. -/
theorem opening_cases {kind : Token.Kind} {opening : Opening}
    (h : standard.opening kind = some opening) :
    (kind = .ident ∧ opening = .atom .name) ∨ (kind = .int ∧ opening = .atom .integer) ∨
      (kind = .kwTrue ∧ opening = .atom .boolean) ∨
      (kind = .kwFalse ∧ opening = .atom .boolean) ∨
      (∃ op, UnaryOp.ofKind? kind = some op ∧ opening = .unary op) ∨
      (kind = .lparen ∧ opening = .group) ∨ (kind = .kwIf ∧ opening = .conditional) := by
  cases kind <;> simp_all [standard, standardOpening, UnaryOp.ofKind?]

/-- What stands behind an expression is a semicolon, or the end of the statement. -/
theorem exists_stop {behind : List Token} (h : Stops .lowest (Token.next behind).kind) :
    ∃ (stop : Option (Of .semicolon)) (rest : List Token), behind = stopTokens stop ++ rest ∧
      separator behind = (stopTokens stop).length ∧
      (stop = none → BinaryOp.ofKind? (Token.next rest).kind = none ∧
        (Token.next rest).kind ≠ .semicolon) := by
  by_cases hkind : (Token.next behind).kind = .semicolon
  · cases behind with
    | nil => cases hkind
    | cons t rest => exact ⟨some ⟨t, hkind⟩, rest, rfl, if_pos hkind, nofun⟩
  · exact ⟨none, behind, rfl, if_neg hkind, fun _ => ⟨stops_lowest_iff.mp h, hkind⟩⟩

/-- The position behind some tokens, counted from behind the first of them. -/
theorem drop_eq_of_cons_eq {t : Token} {next tokens rest : List Token} (hne : tokens ≠ [])
    (h : t :: next = tokens ++ rest) : next.drop (tokens.length - 1) = rest := by
  cases tokens with
  | nil => exact absurd rfl hne
  | cons first others =>
    rw [(List.cons.inj h).2]
    exact List.drop_append_length

/-! ## One lemma for each reader -/

mutual

/-- An expression read above `floor` belongs to the layer above it, and is not continued. -/
theorem exists_of_readExpr (floor : Strength) (ahead : List Token)
    (h : (standard.readExpr floor ahead).diagnostics = []) :
    ∃ tokens rest e, ahead = tokens ++ rest ∧ Spells (Level.above floor) tokens e ∧
      Stops floor (Token.next rest).kind ∧
      standard.readExpr floor ahead = spanning tokens e := by
  rw [readExpr] at h ⊢
  obtain ⟨tokens, rest, e, hahead, hspells, hread⟩ :=
    exists_of_readOperand ahead (diagnostics_of_andThen h)
  have hpos := List.length_pos_iff.mpr hspells.tokens_ne_nil
  have hlen : ahead.length = tokens.length + rest.length := by rw [hahead, List.length_append]
  obtain ⟨last, hlast⟩ := exists_drop_eq hspells.tokens_ne_nil
  rw [hread, spanning, andThen_some, hahead, hlast] at h
  rw [hread, spanning, andThen_some, hahead, hlast]
  -- the loop starts behind an operand, which no operator continues
  obtain ⟨more, rest', e', rfl, hspells', hstops, hmore⟩ :=
    exists_of_readMore floor last rest hspells (Level.strength_above_le_unary floor)
      (stops_unary _) h
  refine ⟨tokens ++ more, rest', e', (List.append_assoc ..).symm, hspells', hstops, ?_⟩
  rw [hmore, shift_eq_spanning hspells.tokens_ne_nil]
termination_by 8 * ahead.length + 3
decreasing_by all_goals omega

theorem exists_of_readOperand (ahead : List Token)
    (h : (standard.readOperand ahead).diagnostics = []) :
    ∃ tokens rest e, ahead = tokens ++ rest ∧ Spells .unary tokens e ∧
      standard.readOperand ahead = spanning tokens e := by
  match ahead with
  | [] =>
    have hopen : standard.opening .eof = none := rfl
    rw [readOperand, hopen] at h
    cases h
  | t :: next =>
    cases hopen : standard.opening t.kind with
    | none =>
      rw [readOperand, hopen] at h
      cases h
    | some opening =>
      -- each kind of opening is one form of the grammar; an atom is read here and now, and what
      -- is inside the other forms comes from the readers of the parts
      rcases opening_cases hopen with ⟨hkind, -⟩ | ⟨hkind, rfl⟩ | ⟨hkind, -⟩ | ⟨hkind, -⟩ |
        ⟨op, hop, rfl⟩ | ⟨hkind, rfl⟩ | ⟨hkind, rfl⟩
      · exact ⟨[t], next, _, rfl, .of_primary (.name ⟨t, hkind⟩) trivial,
          readOperand_name ⟨t, hkind⟩ next⟩
      · cases hvalue : Integer.ofText? t.literal with
        | none =>
          rw [readOperand, hopen] at h
          simp only [Atom.read, hvalue] at h
          cases h
        | some value =>
          exact ⟨[t], next, _, rfl, .of_primary (.numeral ⟨t, hkind⟩ value hvalue) trivial,
            readOperand_numeral ⟨t, hkind⟩ hvalue next⟩
      · exact ⟨[t], next, _, rfl, .of_primary (.truth ⟨t, hkind⟩) trivial,
          readOperand_truth ⟨t, hkind⟩ next⟩
      · exact ⟨[t], next, _, rfl, .of_primary (.falsity ⟨t, hkind⟩) trivial,
          readOperand_falsity ⟨t, hkind⟩ next⟩
      · rw [readOperand, hopen] at h
        obtain ⟨tokens, rest, e, hnext, hspells, -, hread⟩ := exists_of_readExpr .unary next h
        refine ⟨t :: tokens, rest, _, by rw [hnext, List.cons_append], hspells.operated hop, ?_⟩
        rw [hnext] at hread ⊢
        exact readOperand_of_readExpr hop hspells.tokens_ne_nil hread
      · rw [readOperand, hopen] at h
        obtain ⟨inner, closing, rest, hsep, hnext⟩ := exists_of_readGroup next h
        have htokens : t :: next = (Phrase.group ⟨t, hkind⟩ inner closing).tokens ++ rest := by
          simp [Phrase.tokens, hnext]
        refine ⟨_, rest, _, htokens, .of_primary (.group ⟨t, hkind⟩ inner closing) hsep, ?_⟩
        rw [htokens]
        exact Phrase.readOperand_group (inner.passes hsep) rest
      · rw [readOperand, hopen] at h
        exact exists_of_readConditional ⟨t, hkind⟩ next h
termination_by 8 * ahead.length + 2
decreasing_by all_goals simp only [List.length_cons]; omega

/-- A choice, from its first token on. -/
theorem exists_of_readConditional (sign : Of .kwIf) (next : List Token)
    (h : (standard.readConditional sign.val next).diagnostics = []) :
    ∃ tokens rest e, sign.val :: next = tokens ++ rest ∧ Spells .unary tokens e ∧
      standard.readOperand (sign.val :: next) = spanning tokens e := by
  have hall := h
  rw [readConditional] at h
  obtain ⟨opening, next₁, hnext⟩ := exists_of_expect (by decide) (diagnostics_of_andThen h)
  rw [hnext, expect_cons opening.property, andThen_some, diagnostics_shift] at h
  simp only [List.drop_succ_cons, List.drop_zero] at h
  obtain ⟨condition, closing, next₂, hcond, hnext₁⟩ :=
    exists_of_readGroup next₁ (diagnostics_of_andThen h)
  rw [hnext₁, (condition.passes hcond).readGroup_eq, andThen_some, diagnostics_shift,
    List.drop_length_add_append] at h
  simp only [List.drop_succ_cons, List.drop_zero] at h
  obtain ⟨consequence, next₃, hcons, hnext₂⟩ :=
    exists_of_readBranch next₂ (diagnostics_of_andThen h)
  have htotal : next = opening.val :: (condition.tokens ++ closing.val ::
      (consequence.tokens ++ next₃)) := by
    rw [hnext, hnext₁, hnext₂]
  rw [htotal, readConditional_eq (condition.passes hcond) (consequence.isRead hcons)] at hall
  -- whether there is a second block is decided by the token behind the first
  by_cases helse : (Token.next next₃).kind = .kwElse
  · rw [if_pos helse, diagnostics_shift, diagnostics_map, diagnostics_shift] at hall
    obtain ⟨alternative, rest, halt, hnext₄⟩ := exists_of_readBranch (next₃.drop 1) hall
    obtain ⟨otherwise, hnext₃⟩ : ∃ otherwise : Of .kwElse,
        next₃ = otherwise.val :: (alternative.tokens ++ rest) := by
      cases next₃ with
      | nil => cases helse
      | cons o others => exact ⟨⟨o, helse⟩, congrArg (o :: ·) hnext₄⟩
    have htokens : sign.val :: next = (Phrase.choiceElse sign opening condition closing
        consequence otherwise alternative).tokens ++ rest := by
      simp [Phrase.tokens, htotal, hnext₃]
    refine ⟨_, rest, _, htokens, .of_primary (.choiceElse sign opening condition closing
      consequence otherwise alternative) ⟨hcond, hcons, halt⟩, ?_⟩
    rw [htokens]
    exact Phrase.readOperand_choiceElse (condition.passes hcond) (consequence.isRead hcons)
      (alternative.isRead halt) rest
  · have htokens : sign.val :: next =
        (Phrase.choice sign opening condition closing consequence).tokens ++ next₃ := by
      simp [Phrase.tokens, htotal]
    refine ⟨_, next₃, _, htokens,
      .of_primary (.choice sign opening condition closing consequence) ⟨hcond, hcons⟩, ?_⟩
    rw [htokens]
    exact Phrase.readOperand_choice (condition.passes hcond) (consequence.isRead hcons) helse
termination_by 8 * next.length + 7
decreasing_by
  · rw [hnext, List.length_cons]; omega
  · rw [hnext, hnext₁, List.length_cons, List.length_append, List.length_cons]; omega
  · rw [htotal, List.length_drop]
    simp only [List.length_cons, List.length_append]
    omega

/-- A block that comes next. -/
theorem exists_of_readBranch (next : List Token)
    (h : (standard.readBranch next).diagnostics = []) :
    ∃ (b : Braces) (rest : List Token), b.Separated ∧ next = b.tokens ++ rest := by
  rw [readBranch] at h
  obtain ⟨opening, next₁, hnext⟩ := exists_of_expect (by decide) (diagnostics_of_andThen h)
  rw [hnext, expect_cons opening.property, andThen_some] at h
  obtain ⟨body, closing, rest, hsep, hbody⟩ := exists_of_readBody next₁ h
  refine ⟨.mk opening body closing, rest, hsep, ?_⟩
  simp [Braces.tokens, hnext, hbody]
termination_by 8 * next.length + 6
decreasing_by
  rw [hnext, List.length_cons]
  omega

/-- Statements up to a closing brace. -/
theorem exists_of_readBody (ahead : List Token)
    (h : (standard.readBody ahead).diagnostics = []) :
    ∃ (p : Passage) (closing : Of .rbrace) (rest : List Token),
      p.Separated ∧ ahead = p.tokens ++ closing.val :: rest := by
  match ahead with
  | [] => rw [readBody] at h; cases h
  | t :: next =>
    rw [readBody] at h
    by_cases hclose : t.kind = .rbrace
    · exact ⟨.nil, ⟨t, hclose⟩, next, trivial, rfl⟩
    · rw [if_neg hclose] at h
      by_cases heof : t.kind = .eof
      · rw [if_pos heof] at h; cases h
      · rw [if_neg heof, diagnostics_followedBy] at h
        obtain ⟨hfirst, hothers⟩ := List.append_eq_nil_iff.mp h
        obtain ⟨first, behind, hsep, htokens, hsettles, hread⟩ :=
          exists_of_readStmt t next hfirst
        have hdrop := drop_eq_of_cons_eq first.tokens_ne_nil htokens
        rw [hread, spanning, hdrop] at hothers
        obtain ⟨others, closing, rest, hsep', hbehind⟩ := exists_of_readBody behind hothers
        have hcloses : Closes (Token.next (closing.val :: rest)).kind := .inl closing.property
        refine ⟨.cons first others, closing, rest, ?_, ?_⟩
        · rw [hbehind] at hsettles
          exact ⟨hsep, (first.mayPrecede_iff others hcloses).mpr hsettles, hsep'⟩
        · rw [htokens, hbehind, Passage.tokens, List.append_assoc]
termination_by 8 * ahead.length + 5
decreasing_by
  · rw [List.length_cons]; omega
  · rw [← hdrop, List.length_drop, List.length_cons]; omega

/-- A statement, which settles at the token behind it. -/
theorem exists_of_readStmt (t : Token) (next : List Token)
    (h : (standard.readStmt t next).diagnostics = []) :
    ∃ (s : Sentence) (rest : List Token), s.Separated ∧ t :: next = s.tokens ++ rest ∧
      s.Settles (Token.next rest).kind ∧ standard.readStmt t next = spanning s.tokens s.tree := by
  rw [readStmt] at h ⊢
  by_cases hlet : t.kind = .kwLet
  · rw [if_pos hlet] at h ⊢
    exact exists_of_readBinding ⟨t, hlet⟩ next h
  · rw [if_neg hlet] at h ⊢
    by_cases hreturn : t.kind = .kwReturn
    · rw [if_pos hreturn] at h ⊢
      exact exists_of_readResult ⟨t, hreturn⟩ next h
    · rw [if_neg hreturn] at h ⊢
      obtain ⟨tokens, behind, e, htokens, hspells, hstops, hread⟩ :=
        exists_of_readExpr .lowest (t :: next) (diagnostics_of_andThen h)
      obtain ⟨value, hsep, rfl, rfl⟩ : Spells .equality tokens e := hspells
      obtain ⟨stop, rest, hbehind, hseparator, hstop⟩ := exists_stop hstops
      have hfirst : Token.next value.tokens = t := by
        obtain ⟨first, others, hvalue, -⟩ := value.exists_tokens_eq
        rw [hvalue] at htokens ⊢
        exact (List.cons.inj htokens).1.symm
      refine ⟨.expression value stop, rest, hsep, ?_, ?_, ?_⟩
      · rw [htokens, hbehind, Sentence.tokens, List.append_assoc]
      · cases stop with
        | none => exact hstop rfl
        | some _ => trivial
      · have hdrop := drop_eq_of_cons_eq value.tokens_ne_nil htokens
        rw [hread, spanning, andThen_some, hdrop, hseparator]
        simp only [Sentence.tree, hfirst]
        exact shift_eq_spanning value.tokens_ne_nil _ _
termination_by 8 * next.length + 12
decreasing_by
  · omega
  · omega
  · rw [List.length_cons]; omega

/-- A binding, from its first token on. -/
theorem exists_of_readBinding (sign : Of .kwLet) (next : List Token)
    (h : (standard.readBinding sign.val next).diagnostics = []) :
    ∃ (s : Sentence) (rest : List Token), s.Separated ∧ sign.val :: next = s.tokens ++ rest ∧
      s.Settles (Token.next rest).kind ∧
      standard.readBinding sign.val next = spanning s.tokens s.tree := by
  rw [readBinding] at h ⊢
  obtain ⟨name, next₁, hnext⟩ := exists_of_expect (by decide) (diagnostics_of_andThen h)
  rw [hnext, expect_cons name.property, andThen_some, diagnostics_shift] at h
  simp only [List.drop_succ_cons, List.drop_zero] at h
  obtain ⟨assign, next₂, hnext₁⟩ := exists_of_expect (by decide) (diagnostics_of_andThen h)
  rw [hnext₁, expect_cons assign.property, andThen_some, diagnostics_shift] at h
  simp only [List.drop_succ_cons, List.drop_zero, diagnostics_shift] at h
  obtain ⟨tokens, behind, e, hnext₂, hspells, hstops, hread⟩ :=
    exists_of_readExpr .lowest next₂ h
  obtain ⟨value, hsep, rfl, rfl⟩ : Spells .equality tokens e := hspells
  obtain ⟨stop, rest, hbehind, hseparator, hstop⟩ := exists_stop hstops
  refine ⟨.binding sign name assign value stop, rest, hsep, ?_, ?_, ?_⟩
  · simp [Sentence.tokens, hnext, hnext₁, hnext₂, hbehind]
  · cases stop with
    | none => exact hstop rfl
    | some _ => trivial
  · have hlen : 1 + (1 + (value.tokens.length + (stopTokens stop).length)) =
        (Sentence.binding sign name assign value stop).tokens.length - 1 := by
      simp only [Sentence.tokens, List.length_cons, List.length_append]
      omega
    rw [hnext, expect_cons name.property, andThen_some]
    simp only [List.drop_succ_cons, List.drop_zero]
    rw [hnext₁, expect_cons assign.property, andThen_some]
    simp only [List.drop_succ_cons, List.drop_zero, hread, shift_spanning value.tokens_ne_nil]
    rw [hnext₂, List.drop_append_length, hseparator]
    simp only [shift, hlen]
    rfl
termination_by 8 * next.length + 8
decreasing_by
  rw [hnext, hnext₁, List.length_cons, List.length_cons]
  omega

/-- The end of a program, from its first token on. -/
theorem exists_of_readResult (sign : Of .kwReturn) (next : List Token)
    (h : (standard.readResult sign.val next).diagnostics = []) :
    ∃ (s : Sentence) (rest : List Token), s.Separated ∧ sign.val :: next = s.tokens ++ rest ∧
      s.Settles (Token.next rest).kind ∧
      standard.readResult sign.val next = spanning s.tokens s.tree := by
  rw [readResult] at h ⊢
  by_cases hsemicolon : (Token.next next).kind = .semicolon
  · rw [if_pos hsemicolon]
    cases next with
    | nil => cases hsemicolon
    | cons t rest =>
      exact ⟨.bare sign (some ⟨t, hsemicolon⟩), rest, trivial, rfl, trivial, rfl⟩
  · rw [if_neg hsemicolon] at h ⊢
    by_cases hcloses : (Token.next next).kind = .rbrace ∨ (Token.next next).kind = .eof
    · rw [if_pos hcloses]
      exact ⟨.bare sign none, next, trivial, rfl, hcloses, rfl⟩
    · rw [if_neg hcloses] at h ⊢
      obtain ⟨tokens, behind, e, hnext, hspells, hstops, hread⟩ :=
        exists_of_readExpr .lowest next h
      obtain ⟨value, hsep, rfl, rfl⟩ : Spells .equality tokens e := hspells
      obtain ⟨stop, rest, hbehind, hseparator, hstop⟩ := exists_stop hstops
      refine ⟨.result sign value stop, rest, hsep, ?_, ?_, ?_⟩
      · simp [Sentence.tokens, hnext, hbehind]
      · cases stop with
        | none => exact hstop rfl
        | some _ => trivial
      · simp only [hread, shift_spanning value.tokens_ne_nil]
        rw [hnext, List.drop_append_length, hseparator, ← List.length_append]
        rfl
termination_by 8 * next.length + 8
decreasing_by omega

/-- An expression in parentheses, behind the opening one. -/
theorem exists_of_readGroup (next : List Token)
    (h : (standard.readGroup next).diagnostics = []) :
    ∃ (inner : Phrase .equality) (closing : Of .rparen) (rest : List Token),
      inner.Separated ∧ next = inner.tokens ++ closing.val :: rest := by
  rw [readGroup] at h
  have hclean := diagnostics_of_andThen h
  rw [diagnostics_shift] at hclean
  obtain ⟨tokens, rest, e, hnext, hspells, -, hread⟩ := exists_of_readExpr .lowest next hclean
  rw [hread, shift_spanning hspells.tokens_ne_nil, andThen_some, hnext, List.drop_append_length]
    at h
  obtain ⟨closing, rest', rfl⟩ := exists_of_expect (by decide) h
  obtain ⟨inner, hsep, rfl, -⟩ := hspells
  exact ⟨inner, closing, rest', hsep, hnext⟩
termination_by 8 * next.length + 4
decreasing_by omega

theorem exists_of_readMore (floor : Strength) (last : Token) (rest : List Token) {level : Level}
    {tokens : List Token} {e : Expr} (hspells : Spells level tokens e)
    (hle : (Level.above floor).strength ≤ level.strength)
    (hstops : Stops level.strength (Token.next rest).kind)
    (h : (standard.readMore floor e (last :: rest)).diagnostics = []) :
    ∃ more rest' e', rest = more ++ rest' ∧ Spells (Level.above floor) (tokens ++ more) e' ∧
      Stops floor (Token.next rest').kind ∧
      standard.readMore floor e (last :: rest) = ⟨some e', more.length, []⟩ := by
  by_cases hstop : Stops floor (Token.next rest).kind
  · refine ⟨[], rest, e, rfl, ?_, hstop, readMore_of_stops hstop e last⟩
    rw [List.append_nil]
    exact hspells.loosen hle
  · obtain ⟨t, next, op, hrest, hop, hlt⟩ := exists_of_not_stops hstop
    rw [hrest] at h hstops
    rw [readMore_of_operator hop hlt] at h
    have hclean := diagnostics_of_andThen h
    rw [diagnostics_map, diagnostics_shift] at hclean
    obtain ⟨right, behind, r, hnext, hright, hstops', hread⟩ :=
      exists_of_readExpr t.kind.strength next hclean
    have hlen : rest.length = right.length + behind.length + 1 := by
      rw [hrest, hnext, List.length_cons, List.length_append]
    -- the right operand ends in front of an operator that binds no tighter than `t`
    obtain ⟨outer, houter⟩ := Level.exists_operator hop
    have hstrength := Level.strength_of_operator houter
    have hjoined : Spells outer (tokens ++ t :: right) (.binary t e op r) := by
      refine .joined houter (hspells.loosen ?_) ?_
      · exact hstrength ▸ hstops op hop
      · rwa [Level.operand_eq_above houter, ← hstrength]
    obtain ⟨last', hlast⟩ := exists_drop_eq (List.cons_ne_nil t right)
    have hdrop : (t :: next).drop right.length = last' :: behind := hnext ▸ hlast behind
    have hoperand : ((standard.readExpr t.kind.strength next).shift 1).map
        (Option.map (Expr.binary t e op)) =
          ⟨some (Expr.binary t e op r), right.length, []⟩ := by
      rw [hread, shift_spanning hright.tokens_ne_nil]
      rfl
    rw [hoperand, andThen_some, hdrop, shift_shift] at h
    obtain ⟨more, rest', whole, hbehind, hwhole, hstops'', hmore⟩ :=
      exists_of_readMore floor last' behind hjoined
        (Level.strength_above_le houter (hstrength ▸ hlt)) (hstrength ▸ hstops') h
    refine ⟨t :: (right ++ more), rest', whole, ?_, ?_, hstops'', ?_⟩
    · rw [hrest, hnext, hbehind, List.cons_append, List.append_assoc]
    · rwa [List.append_assoc, List.cons_append] at hwhole
    · rw [hrest, readMore_of_operator hop hlt, hoperand, andThen_some, hdrop, hmore, shift_shift]
      simp only [shift, List.length_cons, List.length_append]
      congr 1
      omega
termination_by 8 * rest.length + 9
decreasing_by
  · have hlen : rest.length = next.length + 1 := by rw [hrest, List.length_cons]
    omega
  · omega

end

/-- **A clean reading of a program is a derivation** of everything up to the end of input. -/
theorem exists_of_readProgram (ahead : List Token)
    (h : (standard.readProgram ahead).diagnostics = []) :
    ∃ (p : Passage) (rest : List Token), p.Separated ∧ ahead = p.tokens ++ rest ∧
      (Token.next rest).kind = .eof := by
  match ahead with
  | [] => exact ⟨.nil, [], trivial, rfl, rfl⟩
  | t :: next =>
    by_cases heof : t.kind = .eof
    · exact ⟨.nil, t :: next, trivial, rfl, heof⟩
    · rw [readProgram, if_neg heof, diagnostics_followedBy] at h
      obtain ⟨hfirst, hothers⟩ := List.append_eq_nil_iff.mp h
      obtain ⟨first, behind, hsep, htokens, hsettles, hread⟩ := exists_of_readStmt t next hfirst
      have hdrop := drop_eq_of_cons_eq first.tokens_ne_nil htokens
      rw [hread, spanning, hdrop] at hothers
      obtain ⟨others, rest, hsep', hbehind, hrest⟩ := exists_of_readProgram behind hothers
      refine ⟨.cons first others, rest, ?_, ?_, hrest⟩
      · rw [hbehind] at hsettles
        exact ⟨hsep, (first.mayPrecede_iff others (.inr hrest)).mpr hsettles, hsep'⟩
      · rw [htokens, hbehind, Passage.tokens, List.append_assoc]
termination_by ahead.length
decreasing_by rw [← hdrop, List.length_drop, List.length_cons]; omega

/-- **Whatever is accepted has a derivation** of exactly its tokens, which denotes the program
returned. No token is skipped and none is made up, no statement is lost, and since the derivation
is layered, operators associate to the left within a layer and bind by layer otherwise. -/
theorem derivation_of_clean_program (tokens : List Token) (heof : ∀ t ∈ tokens, t.kind ≠ .eof)
    (h : (Parser.ofTokens tokens).program.2.diagnostics = []) :
    ∃ passage : Passage, passage.tokens = tokens ∧
      passage.program = (Parser.ofTokens tokens).program.1 ∧ passage.Separated := by
  obtain ⟨passage, rest, hsep, htokens, hrest⟩ := exists_of_readProgram tokens h
  have hread := Passage.readProgram_tokens hrest passage hsep
  rw [← htokens] at hread
  refine ⟨passage, ?_, ?_, hsep⟩
  · -- nothing is left over, since what ends a program is not among the tokens
    cases rest with
    | nil => rw [htokens, List.append_nil]
    | cons t others =>
      refine absurd hrest (heof t ?_)
      rw [htokens]
      exact List.mem_append_right _ List.mem_cons_self
  · simp only [Parser.program, Parser.ofTokens, hread]
    rfl

/-- A chain of equal operators, `a - b - c`: it has a derivation, and associates to the left. -/
theorem derivation_of_chain :
    ∃ passage : Passage,
      passage.tokens = [⟨.ident, "a"⟩, ⟨.minus, "-"⟩, ⟨.ident, "b"⟩, ⟨.minus, "-"⟩, ⟨.ident, "c"⟩] ∧
      passage.program = ⟨[.expression ⟨.ident, "a"⟩ (.binary ⟨.minus, "-"⟩
        (.binary ⟨.minus, "-"⟩ (.reference ⟨⟨.ident, "a"⟩, "a"⟩) .sub
          (.reference ⟨⟨.ident, "b"⟩, "b"⟩)) .sub (.reference ⟨⟨.ident, "c"⟩, "c"⟩))]⟩ ∧
      passage.Separated := by
  obtain ⟨passage, htokens, hprogram, hsep⟩ := derivation_of_clean_program
    [⟨.ident, "a"⟩, ⟨.minus, "-"⟩, ⟨.ident, "b"⟩, ⟨.minus, "-"⟩, ⟨.ident, "c"⟩]
    (by decide) (by decide +kernel)
  refine ⟨passage, htokens, hprogram.trans ?_, hsep⟩
  decide +kernel

end Grammar

end Treewalk
