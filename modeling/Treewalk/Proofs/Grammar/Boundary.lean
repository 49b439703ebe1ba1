import Treewalk.Proofs.Grammar

/-!
# Where derivations begin and end

A reader looks at one token beyond what it has read. So what it reads depends on how derivations
begin, and on which kinds of token may stand behind them: `Stops` for expressions and `Settles`
for statements. Inside a passage the two meet: `mayPrecede_iff` says that a statement may stand in
front of others exactly when it settles at their first token.
-/

namespace Treewalk.Grammar

/-! ## Layers and strengths -/

namespace Level

/-- The strength with which the operators of a layer bind. The layers that have none bind tighter
than all that do. -/
def strength : Level → Strength
  | .equality => .equality
  | .order => .order
  | .sum => .sum
  | .product => .product
  | .unary => .unary
  | .primary => .call

/-- The loosest layer of which all operators bind tighter than `floor`. -/
def above : Strength → Level
  | .lowest => .equality
  | .equality => .order
  | .order => .sum
  | .sum => .product
  | .product | .unary | .call => .unary

variable {level : Level} {kind : Token.Kind} {op : BinaryOp} {floor : Strength}

theorem strength_le_operand (level : Level) : level.strength ≤ level.operand.strength := by
  cases level <;> decide

theorem strength_above_le_unary (floor : Strength) : (above floor).strength ≤ .unary := by
  cases floor <;> decide

/-- **An operator binds with the strength of its layer.** -/
theorem strength_of_operator (h : level.operator? kind = some op) :
    kind.strength = level.strength := by
  unfold operator? at h
  split at h
  case h_9 => cases h
  all_goals rfl

/-- An operator of a layer is an operator of the language. -/
theorem ofKind?_of_operator (h : level.operator? kind = some op) :
    BinaryOp.ofKind? kind = some op := by
  unfold operator? at h
  split at h
  case h_9 => cases h
  all_goals exact h

/-- And every operator of the language belongs to a layer. -/
theorem exists_operator (h : BinaryOp.ofKind? kind = some op) :
    ∃ level : Level, level.operator? kind = some op := by
  unfold BinaryOp.ofKind? at h
  split at h
  · exact ⟨.sum, h⟩
  · exact ⟨.sum, h⟩
  · exact ⟨.product, h⟩
  · exact ⟨.product, h⟩
  · exact ⟨.order, h⟩
  · exact ⟨.order, h⟩
  · exact ⟨.equality, h⟩
  · exact ⟨.equality, h⟩
  · cases h

/-- No operator between operands binds as tightly as one in front of its operand. -/
theorem strength_le_product (h : level.operator? kind = some op) : level.strength ≤ .product := by
  cases level with
  | unary | primary => cases kind <;> cases h
  | equality | order | sum | product => decide

/-- What stands between the operators of a layer is what binds tighter than they do. -/
theorem operand_eq_above (h : level.operator? kind = some op) :
    level.operand = above level.strength := by
  cases level with
  | unary | primary => cases kind <;> cases h
  | equality | order | sum | product => rfl

/-- A layer that has an operator lies above `floor` only if the operator binds tighter. -/
theorem lt_of_operator (h : level.operator? kind = some op)
    (hle : (above floor).strength ≤ level.strength) : floor < level.strength := by
  cases level with
  | unary | primary => cases kind <;> cases h
  | equality | order | sum | product => revert hle; cases floor <;> decide

/-- And it does, if it does. -/
theorem strength_above_le (h : level.operator? kind = some op) (hlt : floor < level.strength) :
    (above floor).strength ≤ level.strength := by
  cases level with
  | unary | primary => cases kind <;> cases h
  | equality | order | sum | product => revert hlt; cases floor <;> decide

end Level

/-! ## Where an expression ends -/

/-- A token of this kind does not continue an expression that is read above `floor`. -/
def Stops (floor : Strength) (kind : Token.Kind) : Prop :=
  ∀ op, BinaryOp.ofKind? kind = some op → kind.strength ≤ floor

variable {floor : Strength} {kind : Token.Kind} {level : Level}

theorem Stops.mono {floor' : Strength} (h : Stops floor kind) (hle : floor ≤ floor') :
    Stops floor' kind :=
  fun op hop => Nat.le_trans (h op hop) hle

/-- A token that is no operator continues no expression. -/
theorem stops_of_ofKind?_eq_none (h : BinaryOp.ofKind? kind = none) : Stops floor kind := by
  intro op hop
  rw [h] at hop
  cases hop

/-- Nothing continues an operand, since all operators bind weaker. -/
theorem stops_unary (kind : Token.Kind) : Stops .unary kind := by
  intro op hop
  obtain ⟨level, hlevel⟩ := Level.exists_operator hop
  rw [Level.strength_of_operator hlevel]
  exact Nat.le_trans (Level.strength_le_product hlevel) (by decide)

/-- At the least strength only a token that is no operator ends an expression. -/
theorem stops_lowest_iff : Stops .lowest kind ↔ BinaryOp.ofKind? kind = none := by
  constructor
  · intro h
    cases hop : BinaryOp.ofKind? kind with
    | none => rfl
    | some op =>
      obtain ⟨level, hlevel⟩ := Level.exists_operator hop
      have hle := h op hop
      rw [Level.strength_of_operator hlevel] at hle
      cases level <;> exact absurd hle (by decide)
  · exact stops_of_ofKind?_eq_none

/-- What ends an expression read above `floor` ends one of a layer above it. -/
theorem Stops.of_above (h : Stops floor kind) (hle : (Level.above floor).strength ≤ level.strength) :
    Stops level.strength kind := by
  cases floor with
  | product | unary | call => exact (stops_unary kind).mono hle
  | lowest | equality | order | sum =>
    exact h.mono (Nat.le_trans (by decide) hle)

/-! ## How derivations begin -/

/-- A statement may begin with a token of this kind. -/
def Begins (kind : Token.Kind) : Prop :=
  kind = .kwLet ∨ kind = .kwReturn ∨ (Rules.standardOpening kind).isSome

/-- What begins a statement neither ends a sequence of them nor belongs to the one before. -/
theorem Begins.ne (h : Begins kind) :
    kind ≠ .rbrace ∧ kind ≠ .eof ∧ kind ≠ .semicolon ∧ kind ≠ .kwElse := by
  refine ⟨?_, ?_, ?_, ?_⟩ <;> rintro rfl <;> revert h <;> unfold Begins <;> decide

/-- **Of what begins a statement, only the minus sign is an operator too.** -/
theorem Begins.ofKind?_eq_none_iff (h : Begins kind) :
    BinaryOp.ofKind? kind = none ↔ kind ≠ .minus := by
  rcases h with rfl | rfl | h
  · decide
  · decide
  · revert h
    cases kind <;> decide

/-- An expression begins with a token that opens one. -/
theorem Phrase.exists_tokens_eq : ∀ {level : Level} (p : Phrase level),
    ∃ t rest, p.tokens = t :: rest ∧ (Rules.standardOpening t.kind).isSome
  | _, .operand inner _ => inner.exists_tokens_eq
  | _, .joined left sign _ _ right => by
    obtain ⟨t, rest, htokens, hopen⟩ := left.exists_tokens_eq
    exact ⟨t, rest ++ sign :: right.tokens, by rw [Phrase.tokens, htokens, List.cons_append], hopen⟩
  | _, .operated sign op spells inner => by
    refine ⟨sign, inner.tokens, rfl, ?_⟩
    unfold UnaryOp.ofKind? at spells
    split at spells
    · rename_i h; rw [h]; rfl
    · rename_i h; rw [h]; rfl
    · cases spells
  | _, .name token => ⟨token.val, [], rfl, by rw [token.property]; rfl⟩
  | _, .numeral token _ _ => ⟨token.val, [], rfl, by rw [token.property]; rfl⟩
  | _, .truth token => ⟨token.val, [], rfl, by rw [token.property]; rfl⟩
  | _, .falsity token => ⟨token.val, [], rfl, by rw [token.property]; rfl⟩
  | _, .group opening _ _ => ⟨opening.val, _, rfl, by rw [opening.property]; rfl⟩
  | _, .choice sign _ _ _ _ => ⟨sign.val, _, rfl, by rw [sign.property]; rfl⟩
  | _, .choiceElse sign _ _ _ _ _ _ => ⟨sign.val, _, rfl, by rw [sign.property]; rfl⟩

theorem Phrase.tokens_ne_nil (p : Phrase level) : p.tokens ≠ [] := by
  obtain ⟨t, rest, htokens, -⟩ := p.exists_tokens_eq
  rw [htokens]
  exact List.cons_ne_nil _ _

/-- A statement begins as its kind says. -/
theorem Sentence.exists_tokens_eq (s : Sentence) :
    ∃ t rest, s.tokens = t :: rest ∧ Begins t.kind := by
  cases s with
  | binding sign _ _ _ _ => exact ⟨sign.val, _, rfl, .inl sign.property⟩
  | result sign _ _ => exact ⟨sign.val, _, rfl, .inr (.inl sign.property)⟩
  | bare sign _ => exact ⟨sign.val, _, rfl, .inr (.inl sign.property)⟩
  | expression value stop =>
    obtain ⟨t, rest, htokens, hopen⟩ := value.exists_tokens_eq
    exact ⟨t, rest ++ stopTokens stop, by rw [Sentence.tokens, htokens, List.cons_append],
      .inr (.inr hopen)⟩

theorem Sentence.tokens_ne_nil (s : Sentence) : s.tokens ≠ [] := by
  obtain ⟨t, rest, htokens, -⟩ := s.exists_tokens_eq
  rw [htokens]
  exact List.cons_ne_nil _ _

/-! ## Where a statement ends -/

/-- A token of this kind ends a sequence of statements. -/
def Closes (kind : Token.Kind) : Prop := kind = .rbrace ∨ kind = .eof

/-- A statement is over when a token of this kind comes next. -/
def Sentence.Settles (kind : Token.Kind) : Sentence → Prop
  | .binding _ _ _ _ none | .result _ _ none | .expression _ none =>
    BinaryOp.ofKind? kind = none ∧ kind ≠ .semicolon
  | .bare _ none => Closes kind
  | _ => True

theorem Closes.ofKind?_eq_none (h : Closes kind) : BinaryOp.ofKind? kind = none := by
  rcases h with rfl | rfl <;> rfl

theorem Closes.ne (h : Closes kind) : kind ≠ .semicolon ∧ kind ≠ .kwElse := by
  rcases h with rfl | rfl <;> decide

/-- The first token behind a statement: it begins another one, or ends the sequence. -/
theorem Passage.begins_or_closes (p : Passage) {rest : List Token}
    (h : Closes (Token.next rest).kind) :
    Begins (Token.next (p.tokens ++ rest)).kind ∨ Closes (Token.next (p.tokens ++ rest)).kind := by
  cases p with
  | nil => exact .inr h
  | cons first others =>
    obtain ⟨t, ts, htokens, hbegins⟩ := first.exists_tokens_eq
    rw [Passage.tokens, htokens]
    exact .inl hbegins

theorem Passage.next_ne_else (p : Passage) {rest : List Token}
    (h : Closes (Token.next rest).kind) : (Token.next (p.tokens ++ rest)).kind ≠ .kwElse := by
  rcases p.begins_or_closes h with hb | hc
  · exact hb.ne.2.2.2
  · exact hc.ne.2

/-- **A statement may stand in front of others exactly when it settles at their first token**, or
at the token that ends the sequence where there are no others. -/
theorem Sentence.mayPrecede_iff (s : Sentence) (p : Passage) {rest : List Token}
    (h : Closes (Token.next rest).kind) :
    s.MayPrecede p ↔ s.Settles (Token.next (p.tokens ++ rest)).kind := by
  cases p with
  | nil =>
    -- nothing follows: what ends the sequence ends every statement
    have hnone : (Token.next (Passage.nil.tokens ++ rest)).kind ≠ .semicolon := h.ne.1
    cases s with
    | bare _ stop => cases stop with
      | none => exact ⟨fun _ => h, fun _ => rfl⟩
      | some _ => exact Iff.rfl
    | binding _ _ _ _ stop | result _ _ stop | expression _ stop => cases stop with
      | none =>
        refine ⟨fun _ => ⟨h.ofKind?_eq_none, hnone⟩, fun _ => ?_⟩
        show Token.Kind.eof ≠ .minus
        decide
      | some _ => exact Iff.rfl
  | cons first others =>
    obtain ⟨t, ts, htokens, hbegins⟩ := first.exists_tokens_eq
    have hnext : Token.next (Passage.cons first others).tokens = t := by
      rw [Passage.tokens, htokens]; rfl
    have hnext' : Token.next ((Passage.cons first others).tokens ++ rest) = t := by
      rw [Passage.tokens, htokens]; rfl
    rw [hnext']
    cases s with
    | bare _ stop => cases stop with
      | none =>
        refine ⟨nofun, fun hc => ?_⟩
        rcases hc with hc | hc
        · exact absurd hc hbegins.ne.1
        · exact absurd hc hbegins.ne.2.1
      | some _ => exact Iff.rfl
    | binding _ _ _ _ stop | result _ _ stop | expression _ stop => cases stop with
      | none =>
        -- the others begin with a token that could go on only as a minus sign
        change (Token.next (Passage.cons first others).tokens).kind ≠ .minus ↔ _
        rw [hnext, ← hbegins.ofKind?_eq_none_iff]
        exact ⟨fun hop => ⟨hop, hbegins.ne.2.2.1⟩, fun hop => hop.1⟩
      | some _ => exact Iff.rfl

end Treewalk.Grammar
