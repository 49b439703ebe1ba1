import Treewalk.Proofs.Lookahead
import Treewalk.Proofs.Grammar.Derived

/-!
# The first diagnostic

A text that is not accepted is a good start followed by a token that cannot stand there. The first
diagnostic names that token, or the end of input where all of the text is a good start.

`Faults` says this of a reader at one input. It has three sides: the good start can be completed to
something of the reader's language, the diagnostic names the token behind the good start, and
whatever comes after that token, the diagnostic is the first one all the same. The last side is what
passes from a part to the whole. Where a part has been read without a diagnostic, the same part is
read again in front of any tokens that begin alike, since readers look one token ahead.
-/

namespace Treewalk

/-- The diagnostic is about this token. -/
def Diagnostic.Names : Diagnostic → Token → Prop
  | .unexpected _ found, t => found = t.kind
  | .noOpening kind, t => kind = t.kind
  | .invalidInteger literal, t => t.kind = .int ∧ literal = t.literal

namespace Reading

variable {α β : Type}

/-- What is read on is found later than anything that was wrong before. -/
theorem head?_diagnostics_andThen {r : Reading (Option α)} {d : Diagnostic}
    (h : r.diagnostics.head? = some d) (next : α → Nat → Reading (Option β)) :
    (r.andThen next).diagnostics.head? = some d := by
  cases hvalue : r.value with
  | none => rwa [andThen_of_none hvalue]
  | some a => rw [andThen_of_some hvalue, List.head?_append, h, Option.some_or]

theorem head?_diagnostics_followedBy {r : Reading (Option α)} {d : Diagnostic}
    (h : r.diagnostics.head? = some d) (rest : Nat → Reading (List α)) :
    (r.followedBy rest).diagnostics.head? = some d := by
  rw [diagnostics_followedBy, List.head?_append, h, Option.some_or]

end Reading

namespace Grammar

open Rules Reading

/-! ## Good starts -/

/-- The tokens can be completed to a text of the language. -/
def Opens (language : List Token → Prop) (tokens : List Token) : Prop :=
  ∃ more, language (tokens ++ more)

theorem Opens.intro {language : List Token → Prop} {tokens : List Token} (h : language tokens) :
    Opens language tokens := ⟨[], by rwa [List.append_nil]⟩

theorem Opens.imp {language language' : List Token → Prop} {tokens : List Token}
    (h : Opens language tokens) (himp : ∀ ts, language ts → Opens language' ts) :
    Opens language' tokens := by
  obtain ⟨more, hmore⟩ := h
  obtain ⟨more', hmore'⟩ := himp _ hmore
  exact ⟨more ++ more', by rwa [← List.append_assoc]⟩

/-- Reading `ahead` goes wrong at one token: what is in front of it is a good start, and the
diagnostic that names it comes first whatever is behind it. -/
def Faults {α : Type} (read : List Token → Reading α) (language : List Token → Prop)
    (ahead : List Token) : Prop :=
  ∃ good rest d, ahead = good ++ rest ∧ Opens language good ∧ d.Names (Token.next rest) ∧
    ∀ rest', rest'.head? = rest.head? → (read (good ++ rest')).diagnostics.head? = some d

namespace Faults

variable {α β : Type} {read : List Token → Reading α} {read' : List Token → Reading β}
variable {language language' : List Token → Prop} {ahead behind : List Token}

/-- At the very first token. -/
theorem here {d : Diagnostic} (hopen : Opens language []) (hnames : d.Names (Token.next ahead))
    (h : ∀ rest', rest'.head? = ahead.head? → (read rest').diagnostics.head? = some d) :
    Faults read language ahead :=
  ⟨[], ahead, d, rfl, hopen, hnames, h⟩

/-- Behind tokens that are read as they should be. -/
theorem append (h : Faults read language behind) (tokens : List Token)
    (hopen : ∀ good, good <+: behind → Opens language good → Opens language' (tokens ++ good))
    (hread : ∀ rest' d, rest'.head? = behind.head? → (read rest').diagnostics.head? = some d →
      (read' (tokens ++ rest')).diagnostics.head? = some d) :
    Faults read' language' (tokens ++ behind) := by
  obtain ⟨good, rest, d, rfl, hgood, hnames, hfirst⟩ := h
  refine ⟨tokens ++ good, rest, d, (List.append_assoc ..).symm,
    hopen good (List.prefix_append good rest) hgood, hnames, fun rest' hhead => ?_⟩
  rw [List.append_assoc]
  refine hread _ d ?_ (hfirst rest' hhead)
  rw [List.head?_append, List.head?_append, hhead]

/-- In a part that is read first. -/
theorem imp (h : Faults read language ahead) (hopen : ∀ ts, language ts → Opens language' ts)
    (hread : ∀ rest' d, rest'.head? = ahead.head? → (read rest').diagnostics.head? = some d →
      (read' rest').diagnostics.head? = some d) : Faults read' language' ahead :=
  h.append [] (fun _ _ hgood => hgood.imp hopen) hread

end Faults

/-- An expected token is missing. -/
theorem expect_faults {kind : Token.Kind} {next : List Token} {language : List Token → Prop}
    (hopen : Opens language []) (h : (expect kind next).diagnostics ≠ []) :
    Faults (expect kind) language next := by
  have hne : (Token.next next).kind ≠ kind := by
    intro hkind
    rw [expect, if_pos hkind] at h
    exact h rfl
  refine .here (d := .unexpected kind (Token.next next).kind) hopen rfl fun rest' hhead => ?_
  have hnext : Token.next rest' = Token.next next := (Agree.append [] hhead).next_eq Nat.one_pos
  rw [expect_of_ne (hnext ▸ hne), hnext]
  rfl

/-! ## Languages -/

/-- Expressions of a layer. -/
def IsPhrase (level : Level) (tokens : List Token) : Prop := ∃ e, Spells level tokens e

/-- Expressions in parentheses, behind the opening one. -/
def IsGroup (tokens : List Token) : Prop :=
  ∃ (inner : Phrase .equality) (closing : Of .rparen), inner.Separated ∧
    inner.tokens ++ [closing.val] = tokens

/-- Choices, behind their first token. -/
def IsChoice (sign : Of .kwIf) (tokens : List Token) : Prop := IsPhrase .unary (sign.val :: tokens)

def IsBraces (tokens : List Token) : Prop := ∃ b : Braces, b.Separated ∧ b.tokens = tokens

def IsSentence (tokens : List Token) : Prop := ∃ s : Sentence, s.Separated ∧ s.tokens = tokens

/-- Statements and what ends them: a closing brace in a block, and nothing in a program. -/
def IsRun (ending tokens : List Token) : Prop :=
  ∃ p : Passage, p.Separated ∧ p.tokens ++ ending = tokens

/-! Every language has a text, with which a start that is empty can be completed. -/

/-- An expression to complete a text with: `true`. -/
def anExpr : Phrase .equality := .ofPrimary (.truth ⟨⟨.kwTrue, "true"⟩, rfl⟩)

def aParenthesis : Of .rparen := ⟨⟨.rparen, ")"⟩, Eq.refl Token.Kind.rparen⟩

def aBrace : Of .rbrace := ⟨⟨.rbrace, "\x7d"⟩, rfl⟩

/-- A block to complete a text with: `{}`. -/
def aBlock : Braces := .mk ⟨⟨.lbrace, "\x7b"⟩, rfl⟩ .nil aBrace

theorem isPhrase_of_primary (p : Phrase .primary) (h : p.Separated) : IsPhrase .unary p.tokens :=
  ⟨p.tree, .of_primary p h⟩

theorem IsPhrase.loosen {inner level : Level} {tokens : List Token} (h : IsPhrase inner tokens)
    (hle : level.strength ≤ inner.strength) : IsPhrase level tokens := by
  obtain ⟨e, he⟩ := h
  exact ⟨e, he.loosen hle⟩

theorem IsPhrase.exists_phrase {level : Level} {tokens : List Token} (h : IsPhrase level tokens) :
    ∃ p : Phrase level, p.Separated ∧ p.tokens = tokens := by
  obtain ⟨e, p, hsep, htokens, -⟩ := h
  exact ⟨p, hsep, htokens⟩

/-- A statement may be the last one, whatever it is. -/
theorem Sentence.mayPrecede_nil (s : Sentence) : s.MayPrecede .nil := by
  cases s with
  | bare _ stop => cases stop with
    | none => rfl
    | some _ => trivial
  | binding _ _ _ _ stop | result _ _ stop | expression _ stop => cases stop with
    | none => exact nofun
    | some _ => trivial

/-- A statement that has settled at the token behind it may stand in front of statements that begin
with that token. -/
theorem Sentence.mayPrecede_of_opens {s : Sentence} {behind good more ending : List Token}
    {p : Passage} (hsettles : s.Settles (Token.next behind).kind) (hgood : good <+: behind)
    (hne : good ≠ []) (htokens : p.tokens ++ ending = good ++ more)
    (hcloses : Closes (Token.next ending).kind) : s.MayPrecede p := by
  rw [s.mayPrecede_iff p hcloses, htokens]
  obtain ⟨rest, rfl⟩ := hgood
  cases good with
  | nil => exact absurd rfl hne
  | cons t others => exact hsettles

/-! ## Reading again -/

/-- What has been read is read again in front of tokens that begin alike. -/
theorem spanning_of_localAt {α : Type} {read : List Token → Reading (Option α)}
    {tokens rest rest' : List Token} {value : α} (hlocal : LocalAt 2 read (tokens ++ rest))
    (hne : tokens ≠ []) (h : read (tokens ++ rest) = spanning tokens value)
    (hhead : rest'.head? = rest.head?) : read (tokens ++ rest') = spanning tokens value := by
  have hpos := List.length_pos_iff.mpr hne
  rw [← h]
  refine hlocal _ _ (Agree.append tokens hhead) ?_
  rw [h]
  show tokens.length - 1 + 2 ≤ tokens.length + 1
  omega

/-- Reads a statement from its first token on. -/
def readFirst (ahead : List Token) : Reading (Option Stmt) :=
  standard.readStmt (Token.next ahead) ahead.tail

/-- **One turn of a loop over statements** that leaves no diagnostic, whatever the loop does with
the rest. -/
theorem diagnostics_of_turn {t : Token} {next behind rest' : List Token} {s : Sentence}
    {loop : List Token → Reading (List Stmt)} (htokens : t :: next = s.tokens ++ behind)
    (hread : standard.readStmt t next = spanning s.tokens s.tree)
    (hloop : ∀ next', loop (t :: next') =
      (standard.readStmt t next').followedBy fun m => loop (next'.drop m))
    (hhead : rest'.head? = behind.head?) :
    (loop (s.tokens ++ rest')).diagnostics = (loop rest').diagnostics := by
  obtain ⟨first, others, hs, -⟩ := s.exists_tokens_eq
  rw [hs, List.cons_append] at htokens
  obtain ⟨rfl, rfl⟩ := List.cons.inj htokens
  have hagain : standard.readStmt t (others ++ rest') = spanning s.tokens s.tree := by
    rw [← hread]
    refine standard.readStmt_localAt t (others ++ behind) _ _ (Agree.append others hhead) ?_
    rw [hread, hs]
    exact Nat.le_refl _
  have hmoves : (spanning s.tokens s.tree).moves = others.length := by
    rw [hs]
    rfl
  rw [hs, List.cons_append, hloop, hagain, diagnostics_followedBy, hmoves, List.drop_append_length]
  rfl

/-- Where a loop over statements goes wrong: in its first statement, or further on. -/
theorem faults_of_turn {ending : List Token} (hcloses : Closes (Token.next ending).kind)
    {loop : List Token → Reading (List Stmt)} {t : Token} {next : List Token}
    (hloop : ∀ next', loop (t :: next') =
      (standard.readStmt t next').followedBy fun m => loop (next'.drop m))
    (hfirst : (standard.readStmt t next).diagnostics ≠ [] → Faults readFirst IsSentence (t :: next))
    (hrest : ∀ (s : Sentence) (behind : List Token), t :: next = s.tokens ++ behind →
      (loop behind).diagnostics ≠ [] → Faults loop (IsRun ending) behind)
    (h : (loop (t :: next)).diagnostics ≠ []) : Faults loop (IsRun ending) (t :: next) := by
  have hsingle : ∀ s : Sentence, s.Separated → Opens (IsRun ending) s.tokens := by
    intro s hsep
    refine ⟨ending, .cons s .nil, ⟨hsep, s.mayPrecede_nil, trivial⟩, ?_⟩
    rw [Passage.tokens, Passage.tokens, List.append_nil]
  by_cases hclean : (standard.readStmt t next).diagnostics = []
  · obtain ⟨s, behind, hsep, htokens, hsettles, hread⟩ := exists_of_readStmt t next hclean
    have hturn : ∀ rest', rest'.head? = behind.head? →
        (loop (s.tokens ++ rest')).diagnostics = (loop rest').diagnostics :=
      fun rest' hhead => diagnostics_of_turn htokens hread hloop hhead
    rw [htokens, hturn behind rfl] at h
    have hbehind := hrest s behind htokens h
    rw [htokens]
    refine hbehind.append s.tokens ?_ ?_
    · rintro good hgood ⟨more, p, hp, hmore⟩
      by_cases hne : good = []
      · -- nothing of the other statements is there yet, so there need not be any
        rw [hne, List.append_nil]
        exact hsingle s hsep
      · have hprecede := s.mayPrecede_of_opens hsettles hgood hne hmore hcloses
        refine ⟨more, .cons s p, ⟨hsep, hprecede, hp⟩, ?_⟩
        rw [Passage.tokens, List.append_assoc, hmore, List.append_assoc]
    · intro rest' d hhead hd
      rwa [hturn rest' hhead]
  · refine (hfirst hclean).imp ?_ ?_
    · rintro ts ⟨s, hsep, rfl⟩
      exact hsingle s hsep
    · intro rest' d hhead hd
      obtain ⟨next', rfl⟩ := List.head?_eq_some_iff.mp hhead
      rw [hloop]
      exact head?_diagnostics_followedBy hd _

/-! ## The parts of a choice -/

section Choice

variable {sign : Of .kwIf} {opening : Of .lparen} {condition : Phrase .equality}
variable {closing : Of .rparen} {consequence : Braces} {otherwise : Of .kwElse}
variable {behind : List Token}

theorem faults_of_condition (h : Faults standard.readGroup IsGroup behind) :
    Faults (standard.readConditional sign.val) (IsChoice sign) (opening.val :: behind) := by
  refine h.append [opening.val] ?_ ?_
  · rintro good - ⟨more, condition, closing, hcond, hmore⟩
    refine ⟨more ++ aBlock.tokens, ?_⟩
    have hchoice := isPhrase_of_primary (.choice sign opening condition closing aBlock)
      ⟨hcond, trivial⟩
    rw [IsChoice, ← List.append_assoc, List.append_assoc [opening.val], ← hmore]
    simpa [Phrase.tokens] using hchoice
  · intro rest' d _ hd
    rw [List.singleton_append, readConditional, expect_cons opening.property, andThen_some,
      diagnostics_shift]
    exact head?_diagnostics_andThen hd _

theorem faults_of_consequence (hcond : condition.Separated)
    (h : Faults standard.readBranch IsBraces behind) :
    Faults (standard.readConditional sign.val) (IsChoice sign)
      (opening.val :: (condition.tokens ++ closing.val :: behind)) := by
  have hread : ∀ next' d, (standard.readBranch next').diagnostics.head? = some d →
      (standard.readConditional sign.val (opening.val :: (condition.tokens ++ closing.val ::
        next'))).diagnostics.head? = some d := by
    intro next' d hd
    rw [readConditional, expect_cons opening.property, andThen_some, diagnostics_shift]
    simp only [List.drop_succ_cons, List.drop_zero]
    rw [(condition.passes hcond).readGroup_eq, andThen_some, diagnostics_shift,
      List.drop_length_add_append]
    exact head?_diagnostics_andThen hd _
  have htokens : opening.val :: (condition.tokens ++ closing.val :: behind) =
      opening.val :: (condition.tokens ++ [closing.val]) ++ behind := by simp
  rw [htokens]
  refine h.append _ ?_ ?_
  · rintro good - ⟨more, consequence, hcons, hmore⟩
    refine ⟨more, ?_⟩
    have hchoice := isPhrase_of_primary (.choice sign opening condition closing consequence)
      ⟨hcond, hcons⟩
    simpa [IsChoice, Phrase.tokens, hmore] using hchoice
  · intro rest' d _ hd
    simpa using hread rest' d hd

theorem faults_of_alternative (hcond : condition.Separated) (hcons : consequence.Separated)
    (h : Faults standard.readBranch IsBraces behind) :
    Faults (standard.readConditional sign.val) (IsChoice sign)
      (opening.val :: (condition.tokens ++ closing.val ::
        (consequence.tokens ++ otherwise.val :: behind))) := by
  have htokens : opening.val :: (condition.tokens ++ closing.val ::
      (consequence.tokens ++ otherwise.val :: behind)) =
        opening.val :: (condition.tokens ++ closing.val ::
          (consequence.tokens ++ [otherwise.val])) ++ behind := by simp
  rw [htokens]
  refine h.append _ ?_ ?_
  · rintro good - ⟨more, alternative, halt, hmore⟩
    refine ⟨more, ?_⟩
    have hchoice := isPhrase_of_primary (.choiceElse sign opening condition closing consequence
      otherwise alternative) ⟨hcond, hcons, halt⟩
    simpa [IsChoice, Phrase.tokens, hmore] using hchoice
  · intro rest' d _ hd
    have helse : (Token.next (otherwise.val :: rest')).kind = .kwElse := otherwise.property
    simp only [List.cons_append, List.append_assoc, List.nil_append]
    rw [readConditional_eq (condition.passes hcond) (consequence.isRead hcons), if_pos helse]
    exact hd

/-- Behind its first block a choice goes wrong in the second one only. -/
theorem exists_otherwise (hcond : condition.Separated) (hcons : consequence.Separated)
    (h : (standard.readConditional sign.val (opening.val :: (condition.tokens ++ closing.val ::
      (consequence.tokens ++ behind)))).diagnostics ≠ []) :
    ∃ (otherwise : Of .kwElse) (next : List Token), behind = otherwise.val :: next ∧
      (standard.readBranch next).diagnostics ≠ [] := by
  rw [readConditional_eq (condition.passes hcond) (consequence.isRead hcons),
    diagnostics_shift] at h
  by_cases helse : (Token.next behind).kind = .kwElse
  · rw [if_pos helse] at h
    cases behind with
    | nil => cases helse
    | cons t next => exact ⟨⟨t, helse⟩, next, rfl, h⟩
  · rw [if_neg helse] at h
    exact absurd rfl h

end Choice

/-! ## One lemma for each reader -/

mutual

theorem readExpr_faults (floor : Strength) (ahead : List Token)
    (h : (standard.readExpr floor ahead).diagnostics ≠ []) :
    Faults (standard.readExpr floor) (IsPhrase (Level.above floor)) ahead := by
  by_cases hclean : (standard.readOperand ahead).diagnostics = []
  · obtain ⟨tokens, rest, e, hahead, hspells, hread⟩ := exists_of_readOperand ahead hclean
    have hne := hspells.tokens_ne_nil
    have hpos := List.length_pos_iff.mpr hne
    have hlen : ahead.length = tokens.length + rest.length := by rw [hahead, List.length_append]
    rw [hahead] at hread
    obtain ⟨last, hlast⟩ := exists_drop_eq hne
    have hexpr : ∀ rest', rest'.head? = rest.head? → standard.readExpr floor (tokens ++ rest') =
        (standard.readMore floor e (last :: rest')).shift (tokens.length - 1) := by
      intro rest' hhead
      rw [readExpr, spanning_of_localAt (standard.readOperand_localAt _) hne hread hhead, spanning,
        andThen_some, hlast]
    rw [hahead, hexpr rest rfl, diagnostics_shift] at h
    rw [hahead]
    refine (readMore_faults floor last rest hspells (stops_unary _) h).append tokens ?_ ?_
    · rintro good - ⟨more, hmore⟩
      exact ⟨more, by rwa [List.append_assoc]⟩
    · intro rest' d hhead hd
      rwa [hexpr rest' hhead, diagnostics_shift]
  · refine (readOperand_faults ahead hclean).imp ?_ ?_
    · intro ts hts
      exact .intro (hts.loosen (Level.strength_above_le_unary floor))
    · intro rest' d _ hd
      rw [readExpr]
      exact head?_diagnostics_andThen hd _
termination_by 8 * ahead.length + 3
decreasing_by all_goals omega

theorem readOperand_faults (ahead : List Token)
    (h : (standard.readOperand ahead).diagnostics ≠ []) :
    Faults standard.readOperand (IsPhrase .unary) ahead := by
  have hopens : Opens (IsPhrase .unary) [] :=
    ⟨_, isPhrase_of_primary (.truth ⟨⟨.kwTrue, "true"⟩, rfl⟩) trivial⟩
  match ahead with
  | [] =>
    refine .here (d := .noOpening .eof) hopens rfl fun rest' hhead => ?_
    rw [List.head?_eq_none_iff.mp hhead, readOperand]
    rfl
  | t :: next =>
    cases hopen : standard.opening t.kind with
    | none =>
      refine .here (d := .noOpening t.kind) hopens rfl fun rest' hhead => ?_
      obtain ⟨next', rfl⟩ := List.head?_eq_some_iff.mp hhead
      rw [readOperand, hopen]
      rfl
    | some opening =>
      rcases opening_cases hopen with ⟨-, rfl⟩ | ⟨hkind, rfl⟩ | ⟨-, rfl⟩ | ⟨-, rfl⟩ |
        ⟨op, hop, rfl⟩ | ⟨hkind, rfl⟩ | ⟨hkind, rfl⟩
      · rw [readOperand, hopen] at h
        exact absurd rfl h
      · have hread : ∀ next', (standard.readOperand (t :: next')).diagnostics =
            (Atom.integer.read t).2 := by
          intro next'
          rw [readOperand, hopen]
        rw [hread] at h
        cases hvalue : Integer.ofText? t.literal with
        | none =>
          refine .here (d := .invalidInteger t.literal) hopens ⟨hkind, rfl⟩ fun rest' hhead => ?_
          obtain ⟨next', rfl⟩ := List.head?_eq_some_iff.mp hhead
          simp only [hread, Atom.read, hvalue, List.head?_cons]
        | some value =>
          simp only [Atom.read, hvalue] at h
          exact absurd rfl h
      · rw [readOperand, hopen] at h
        exact absurd rfl h
      · rw [readOperand, hopen] at h
        exact absurd rfl h
      · have hread : ∀ next', (standard.readOperand (t :: next')).diagnostics =
            (standard.readExpr .unary next').diagnostics := by
          intro next'
          rw [readOperand, hopen]
          rfl
        rw [hread] at h
        refine (readExpr_faults .unary next h).append [t] ?_ ?_
        · rintro good - ⟨more, e, hspells⟩
          exact ⟨more, _, hspells.operated hop⟩
        · intro rest' d _ hd
          rwa [List.singleton_append, hread]
      · have hread : ∀ next', standard.readOperand (t :: next') = standard.readGroup next' := by
          intro next'
          rw [readOperand, hopen]
        rw [hread] at h
        refine (readGroup_faults next h).append [t] ?_ ?_
        · rintro good - ⟨more, inner, closing, hsep, htokens⟩
          refine ⟨more, ?_⟩
          rw [List.append_assoc, ← htokens]
          exact isPhrase_of_primary (.group ⟨t, hkind⟩ inner closing) hsep
        · intro rest' d _ hd
          rwa [List.singleton_append, hread]
      · have hread : ∀ next', standard.readOperand (t :: next') =
            standard.readConditional t next' := by
          intro next'
          rw [readOperand, hopen]
        rw [hread] at h
        refine (readConditional_faults ⟨t, hkind⟩ next h).append [t] ?_ ?_
        · rintro good - ⟨more, hmore⟩
          exact ⟨more, hmore⟩
        · intro rest' d _ hd
          rwa [List.singleton_append, hread]
termination_by 8 * ahead.length + 2
decreasing_by all_goals simp only [List.length_cons]; omega

theorem readGroup_faults (next : List Token) (h : (standard.readGroup next).diagnostics ≠ []) :
    Faults standard.readGroup IsGroup next := by
  by_cases hclean : (standard.readExpr .lowest next).diagnostics = []
  · obtain ⟨tokens, rest, e, rfl, hspells, -, hread⟩ := exists_of_readExpr .lowest next hclean
    have hne := hspells.tokens_ne_nil
    have hgroup : ∀ rest', rest'.head? = rest.head? → standard.readGroup (tokens ++ rest') =
        ((expect .rparen rest').map (Option.map fun _ => e)).shift tokens.length := by
      intro rest' hhead
      rw [readGroup, spanning_of_localAt (standard.readExpr_localAt _ _) hne hread hhead,
        shift_spanning hne, andThen_some, List.drop_append_length]
    rw [hgroup rest rfl, diagnostics_shift, diagnostics_map] at h
    have hopens : Opens (fun ts => IsGroup (tokens ++ ts)) [] := by
      obtain ⟨inner, hsep, rfl, -⟩ := hspells
      exact ⟨[aParenthesis.val], inner, aParenthesis, hsep, rfl⟩
    refine (expect_faults hopens h).append tokens ?_ ?_
    · rintro good - ⟨more, hmore⟩
      exact ⟨more, by rwa [List.append_assoc]⟩
    · intro rest' d hhead hd
      rwa [hgroup rest' hhead]
  · refine (readExpr_faults .lowest next hclean).imp ?_ ?_
    · intro ts hts
      obtain ⟨inner, hsep, rfl⟩ := IsPhrase.exists_phrase hts
      exact ⟨[aParenthesis.val], inner, aParenthesis, hsep, rfl⟩
    · intro rest' d _ hd
      rw [readGroup]
      exact head?_diagnostics_andThen (by rwa [diagnostics_shift]) _
termination_by 8 * next.length + 4
decreasing_by omega

/-- A choice, behind its first token. -/
theorem readConditional_faults (sign : Of .kwIf) (next : List Token)
    (h : (standard.readConditional sign.val next).diagnostics ≠ []) :
    Faults (standard.readConditional sign.val) (IsChoice sign) next := by
  by_cases hopening : (expect .lparen next).diagnostics = []
  · obtain ⟨opening, next₁, hnext⟩ := exists_of_expect (by decide) hopening
    have hlen : next.length = next₁.length + 1 := by rw [hnext, List.length_cons]
    rw [hnext] at h
    rw [hnext]
    by_cases hclean : (standard.readGroup next₁).diagnostics = []
    · obtain ⟨condition, closing, next₂, hcond, hnext₁⟩ := exists_of_readGroup next₁ hclean
      have hlen₁ : next₁.length = condition.tokens.length + (next₂.length + 1) := by
        rw [hnext₁, List.length_append, List.length_cons]
      rw [hnext₁] at h
      rw [hnext₁]
      by_cases hclean' : (standard.readBranch next₂).diagnostics = []
      · obtain ⟨consequence, next₃, hcons, hnext₂⟩ := exists_of_readBranch next₂ hclean'
        have hlen₂ : next₂.length = consequence.tokens.length + next₃.length := by
          rw [hnext₂, List.length_append]
        rw [hnext₂] at h
        rw [hnext₂]
        obtain ⟨otherwise, next₄, hnext₃, halt⟩ := exists_otherwise hcond hcons h
        have hlen₃ : next₃.length = next₄.length + 1 := by rw [hnext₃, List.length_cons]
        rw [hnext₃]
        exact faults_of_alternative hcond hcons (readBranch_faults next₄ halt)
      · exact faults_of_consequence hcond (readBranch_faults next₂ hclean')
    · exact faults_of_condition (readGroup_faults next₁ hclean)
  · have hopens : Opens (IsChoice sign) [] :=
      ⟨_, isPhrase_of_primary (.choice sign ⟨⟨.lparen, "("⟩, rfl⟩ anExpr aParenthesis aBlock)
        ⟨trivial, trivial⟩⟩
    refine (expect_faults hopens hopening).imp (fun _ => .intro) ?_
    intro rest' d _ hd
    rw [readConditional]
    exact head?_diagnostics_andThen hd _
termination_by 8 * next.length + 7
decreasing_by all_goals omega

theorem readBranch_faults (next : List Token) (h : (standard.readBranch next).diagnostics ≠ []) :
    Faults standard.readBranch IsBraces next := by
  by_cases hclean : (expect .lbrace next).diagnostics = []
  · obtain ⟨brace, next₁, hnext⟩ := exists_of_expect (by decide) hclean
    have hlen : next.length = next₁.length + 1 := by rw [hnext, List.length_cons]
    have hbranch : ∀ next', (standard.readBranch (brace.val :: next')).diagnostics =
        (standard.readBody next').diagnostics := by
      intro next'
      rw [readBranch, expect_cons brace.property, andThen_some]
      rfl
    rw [hnext, hbranch] at h
    rw [hnext]
    refine (readBody_faults next₁ h).append [brace.val] ?_ ?_
    · rintro good - ⟨more, p, hsep, htokens⟩
      refine ⟨more, .mk brace p aBrace, hsep, ?_⟩
      rw [Braces.tokens, htokens]
      rfl
    · intro rest' d _ hd
      rwa [List.singleton_append, hbranch]
  · have hopens : Opens IsBraces [] := ⟨_, aBlock, trivial, rfl⟩
    refine (expect_faults hopens hclean).imp (fun _ => .intro) ?_
    intro rest' d _ hd
    rw [readBranch]
    exact head?_diagnostics_andThen hd _
termination_by 8 * next.length + 6
decreasing_by omega

theorem readBody_faults (ahead : List Token) (h : (standard.readBody ahead).diagnostics ≠ []) :
    Faults standard.readBody (IsRun [aBrace.val]) ahead := by
  have hopens : Opens (IsRun [aBrace.val]) [] := ⟨_, .nil, trivial, rfl⟩
  match ahead with
  | [] =>
    refine .here (d := .unexpected .rbrace .eof) hopens rfl fun rest' hhead => ?_
    rw [List.head?_eq_none_iff.mp hhead, readBody]
    rfl
  | t :: next =>
    have hclose : t.kind ≠ .rbrace := by
      intro hclose
      rw [readBody, if_pos hclose] at h
      exact h rfl
    by_cases heof : t.kind = .eof
    · refine .here (d := .unexpected .rbrace .eof) hopens heof.symm fun rest' hhead => ?_
      obtain ⟨next', rfl⟩ := List.head?_eq_some_iff.mp hhead
      rw [readBody, if_neg hclose, if_pos heof]
      rfl
    have hcloses : Closes (Token.next [aBrace.val]).kind := .inl rfl
    refine faults_of_turn hcloses ?_ (readFirst_faults t next) ?_ h
    · intro next'
      rw [readBody, if_neg hclose, if_neg heof]
    · intro s behind htokens hbehind
      have hpos := List.length_pos_iff.mpr s.tokens_ne_nil
      exact readBody_faults behind hbehind
termination_by 8 * ahead.length + 5
decreasing_by
  · rw [List.length_cons]; omega
  · rw [htokens, List.length_append]; omega

/-- A statement, from its first token on. -/
theorem readFirst_faults (t : Token) (next : List Token)
    (h : (readFirst (t :: next)).diagnostics ≠ []) :
    Faults readFirst IsSentence (t :: next) := by
  by_cases hlet : t.kind = .kwLet
  · have hread : ∀ next', readFirst (t :: next') = standard.readBinding t next' := by
      intro next'
      rw [readFirst, Token.next_cons, List.tail_cons, readStmt, if_pos hlet]
    rw [hread] at h
    refine (readBinding_faults ⟨t, hlet⟩ next h).append [t] (fun _ _ hgood => hgood) ?_
    intro rest' d _ hd
    rwa [List.singleton_append, hread]
  by_cases hreturn : t.kind = .kwReturn
  · have hread : ∀ next', readFirst (t :: next') = standard.readResult t next' := by
      intro next'
      rw [readFirst, Token.next_cons, List.tail_cons, readStmt, if_neg hlet, if_pos hreturn]
    rw [hread] at h
    refine (readResult_faults ⟨t, hreturn⟩ next h).append [t] (fun _ _ hgood => hgood) ?_
    intro rest' d _ hd
    rwa [List.singleton_append, hread]
  · have hread : ∀ next', readFirst (t :: next') =
        (standard.readExpr .lowest (t :: next')).andThen fun value m =>
          ⟨some (.expression t value), separator (next'.drop m), []⟩ := by
      intro next'
      rw [readFirst, Token.next_cons, List.tail_cons, readStmt, if_neg hlet, if_neg hreturn]
    have hexpr : (standard.readExpr .lowest (t :: next)).diagnostics ≠ [] := by
      intro hclean
      obtain ⟨tokens, rest, e, -, -, -, hspan⟩ := exists_of_readExpr .lowest (t :: next) hclean
      rw [hread, hspan] at h
      exact h rfl
    refine (readExpr_faults .lowest (t :: next) hexpr).imp ?_ ?_
    · intro ts hts
      obtain ⟨value, hsep, rfl⟩ := IsPhrase.exists_phrase hts
      exact ⟨[], .expression value none, hsep, rfl⟩
    · intro rest' d hhead hd
      obtain ⟨next', rfl⟩ := List.head?_eq_some_iff.mp hhead
      rw [hread]
      exact head?_diagnostics_andThen hd _
termination_by 8 * next.length + 12
decreasing_by
  · omega
  · omega
  · rw [List.length_cons]; omega

theorem readBinding_faults (sign : Of .kwLet) (next : List Token)
    (h : (standard.readBinding sign.val next).diagnostics ≠ []) :
    Faults (standard.readBinding sign.val) (fun ts => IsSentence (sign.val :: ts)) next := by
  by_cases hname : (expect .ident next).diagnostics = []
  · obtain ⟨name, next₁, hnext⟩ := exists_of_expect (by decide) hname
    by_cases hassign : (expect .assign next₁).diagnostics = []
    · obtain ⟨assign, next₂, hnext₁⟩ := exists_of_expect (by decide) hassign
      have hlen : next.length = next₂.length + 2 := by
        rw [hnext, hnext₁, List.length_cons, List.length_cons]
      have hvalue : ∀ next', (standard.readBinding sign.val (name.val :: assign.val ::
          next')).diagnostics = (standard.readExpr .lowest next').diagnostics := by
        intro next'
        rw [readBinding, expect_cons name.property, andThen_some, diagnostics_shift]
        simp only [List.drop_succ_cons, List.drop_zero]
        rw [expect_cons assign.property, andThen_some, diagnostics_shift]
        rfl
      rw [hnext, hnext₁, hvalue] at h
      rw [hnext, hnext₁]
      refine (readExpr_faults .lowest next₂ h).append [name.val, assign.val] ?_ ?_
      · rintro good - ⟨more, hmore⟩
        obtain ⟨value, hsep, htokens⟩ : ∃ p : Phrase .equality, p.Separated ∧
            p.tokens = good ++ more := IsPhrase.exists_phrase hmore
        refine ⟨more, .binding sign name assign value none, hsep, ?_⟩
        simp [Sentence.tokens, stopTokens, htokens]
      · intro rest' d _ hd
        exact (congrArg List.head? (hvalue rest')).trans hd
    · have hopens : Opens (fun ts => IsSentence (sign.val :: name.val :: ts)) [] :=
        ⟨_, .binding sign name ⟨⟨.assign, "="⟩, rfl⟩ anExpr none, trivial, rfl⟩
      rw [hnext]
      refine (expect_faults hopens hassign).append [name.val] (fun _ _ hgood => hgood) ?_
      intro rest' d _ hd
      rw [List.singleton_append, readBinding, expect_cons name.property, andThen_some,
        diagnostics_shift]
      exact head?_diagnostics_andThen hd _
  · refine (expect_faults ?_ hname).imp (fun _ => .intro) ?_
    · exact ⟨_, .binding sign ⟨⟨.ident, "x"⟩, rfl⟩ ⟨⟨.assign, "="⟩, rfl⟩ anExpr none, trivial, rfl⟩
    · intro rest' d _ hd
      rw [readBinding]
      exact head?_diagnostics_andThen hd _
termination_by 8 * next.length + 8
decreasing_by omega

theorem readResult_faults (sign : Of .kwReturn) (next : List Token)
    (h : (standard.readResult sign.val next).diagnostics ≠ []) :
    Faults (standard.readResult sign.val) (fun ts => IsSentence (sign.val :: ts)) next := by
  have hstop : (Token.next next).kind ≠ .semicolon := by
    intro hstop
    rw [readResult, if_pos hstop] at h
    exact h rfl
  have hclose : ¬((Token.next next).kind = .rbrace ∨ (Token.next next).kind = .eof) := by
    intro hclose
    rw [readResult, if_neg hstop, if_pos hclose] at h
    exact h rfl
  have hvalue : ∀ rest', rest'.head? = next.head? →
      (standard.readResult sign.val rest').diagnostics =
        (standard.readExpr .lowest rest').diagnostics := by
    intro rest' hhead
    have hnext : Token.next rest' = Token.next next := (Agree.append [] hhead).next_eq Nat.one_pos
    rw [readResult, hnext, if_neg hstop, if_neg hclose]
    rfl
  rw [hvalue next rfl] at h
  refine (readExpr_faults .lowest next h).imp ?_ ?_
  · intro ts hts
    obtain ⟨value, hsep, rfl⟩ := IsPhrase.exists_phrase hts
    exact ⟨[], .result sign value none, hsep, rfl⟩
  · intro rest' d hhead hd
    rwa [hvalue rest' hhead]
termination_by 8 * next.length + 8
decreasing_by omega

theorem readMore_faults (floor : Strength) (last : Token) (rest : List Token) {level : Level}
    {tokens : List Token} {e : Expr} (hspells : Spells level tokens e)
    (hstops : Stops level.strength (Token.next rest).kind)
    (h : (standard.readMore floor e (last :: rest)).diagnostics ≠ []) :
    Faults (fun ts => standard.readMore floor e (last :: ts))
      (fun ts => IsPhrase (Level.above floor) (tokens ++ ts)) rest := by
  have hnot : ¬Stops floor (Token.next rest).kind := by
    intro hstop
    rw [readMore_of_stops hstop] at h
    exact h rfl
  obtain ⟨t, next, op, hrest, hop, hlt⟩ := exists_of_not_stops hnot
  have hlen : rest.length = next.length + 1 := by rw [hrest, List.length_cons]
  rw [hrest] at h hstops
  rw [hrest]
  obtain ⟨outer, houter⟩ := Level.exists_operator hop
  have hstrength := Level.strength_of_operator houter
  have hleft : Spells outer tokens e := hspells.loosen (hstrength ▸ hstops op hop)
  have habove : (Level.above floor).strength ≤ outer.strength :=
    Level.strength_above_le houter (hstrength ▸ hlt)
  by_cases hclean : (standard.readExpr t.kind.strength next).diagnostics = []
  · obtain ⟨right, behind, r, hnext, hright, hstops', hread⟩ :=
      exists_of_readExpr t.kind.strength next hclean
    have hlen' : next.length = right.length + behind.length := by rw [hnext, List.length_append]
    rw [hnext] at h hread
    rw [hnext]
    have hjoined : Spells outer (tokens ++ t :: right) (.binary t e op r) := by
      refine .joined houter hleft ?_
      rwa [Level.operand_eq_above houter, ← hstrength]
    obtain ⟨last', hlast⟩ := exists_drop_eq (List.cons_ne_nil t right)
    have hmore : ∀ rest', rest'.head? = behind.head? →
        (standard.readMore floor e (last :: t :: (right ++ rest'))).diagnostics =
          (standard.readMore floor (.binary t e op r) (last' :: rest')).diagnostics := by
      intro rest' hhead
      have hdrop : (t :: (right ++ rest')).drop right.length = last' :: rest' := hlast rest'
      have hoperand : ((standard.readExpr t.kind.strength (right ++ rest')).shift 1).map
          (Option.map (Expr.binary t e op)) =
            ⟨some (Expr.binary t e op r), right.length, []⟩ := by
        rw [spanning_of_localAt (standard.readExpr_localAt _ _) hright.tokens_ne_nil hread hhead,
          shift_spanning hright.tokens_ne_nil]
        rfl
      rw [readMore_of_operator hop hlt, hoperand, andThen_some, hdrop]
      rfl
    rw [hmore behind rfl] at h
    refine (readMore_faults floor last' behind hjoined (hstrength ▸ hstops') h).append
      (t :: right) ?_ ?_
    · rintro good - ⟨more, hphrase⟩
      exact ⟨more, by simpa using hphrase⟩
    · intro rest' d hhead hd
      exact (congrArg List.head? (hmore rest' hhead)).trans hd
  · refine (readExpr_faults t.kind.strength next hclean).append [t] ?_ ?_
    · rintro good - ⟨more, r, hright⟩
      refine ⟨more, .loosen ⟨.binary t e op r, ?_⟩ habove⟩
      refine .joined houter hleft ?_
      rwa [Level.operand_eq_above houter, ← hstrength]
    · intro rest' d _ hd
      show (standard.readMore floor e (last :: t :: rest')).diagnostics.head? = some d
      rw [readMore_of_operator hop hlt, diagnostics_shift]
      exact head?_diagnostics_andThen (by rwa [diagnostics_map, diagnostics_shift]) _
termination_by 8 * rest.length + 9
decreasing_by all_goals omega

end

/-- **Where a program goes wrong.** -/
theorem readProgram_faults (ahead : List Token)
    (h : (standard.readProgram ahead).diagnostics ≠ []) :
    Faults standard.readProgram (IsRun []) ahead := by
  match ahead with
  | [] =>
    rw [readProgram] at h
    exact absurd rfl h
  | t :: next =>
    have heof : t.kind ≠ .eof := by
      intro heof
      rw [readProgram, if_pos heof] at h
      exact h rfl
    have hcloses : Closes (Token.next []).kind := .inr rfl
    refine faults_of_turn hcloses ?_ (readFirst_faults t next) ?_ h
    · intro next'
      rw [readProgram, if_neg heof]
    · intro s behind htokens hbehind
      have hpos := List.length_pos_iff.mpr s.tokens_ne_nil
      exact readProgram_faults behind hbehind
termination_by ahead.length
decreasing_by rw [htokens, List.length_append]; omega

/-! ## Derivations have no end of input in them -/

theorem kind_ne_eof_of_mem_stopTokens {stop : Option (Of .semicolon)} {t : Token}
    (ht : t ∈ stopTokens stop) : t.kind ≠ .eof := by
  cases stop with
  | none => cases ht
  | some semicolon =>
    rw [List.mem_singleton.mp ht, semicolon.property]
    decide

mutual

theorem Phrase.kind_ne_eof : ∀ {level : Level} (p : Phrase level), ∀ t ∈ p.tokens, t.kind ≠ .eof
  | _, .operand inner _ => inner.kind_ne_eof
  | _, .joined left sign op spells right => by
    have hsign : sign.kind ≠ .eof := by
      intro hkind
      have hop := Level.ofKind?_of_operator spells
      rw [hkind] at hop
      cases hop
    simp only [Phrase.tokens, List.mem_append, List.mem_cons]
    rintro t (ht | rfl | ht)
    · exact left.kind_ne_eof t ht
    · exact hsign
    · exact right.kind_ne_eof t ht
  | _, .operated sign op spells inner => by
    have hsign : sign.kind ≠ .eof := by
      intro hkind
      rw [hkind] at spells
      cases spells
    simp only [Phrase.tokens, List.mem_cons]
    rintro t (rfl | ht)
    · exact hsign
    · exact inner.kind_ne_eof t ht
  | _, .name token | _, .numeral token _ _ | _, .truth token | _, .falsity token => by
    simp [Phrase.tokens, token.property]
  | _, .group opening inner closing => by
    simp only [Phrase.tokens, List.mem_append, List.mem_cons, List.not_mem_nil, or_false]
    rintro t (rfl | ht | rfl)
    · simp [opening.property]
    · exact inner.kind_ne_eof t ht
    · simp [closing.property]
  | _, .choice sign opening condition closing consequence => by
    simp only [Phrase.tokens, List.mem_append, List.mem_cons]
    rintro t (rfl | rfl | ht | rfl | ht)
    · simp [sign.property]
    · simp [opening.property]
    · exact condition.kind_ne_eof t ht
    · simp [closing.property]
    · exact consequence.kind_ne_eof t ht
  | _, .choiceElse sign opening condition closing consequence otherwise alternative => by
    simp only [Phrase.tokens, List.mem_append, List.mem_cons]
    rintro t (rfl | rfl | ht | rfl | ht | rfl | ht)
    · simp [sign.property]
    · simp [opening.property]
    · exact condition.kind_ne_eof t ht
    · simp [closing.property]
    · exact consequence.kind_ne_eof t ht
    · simp [otherwise.property]
    · exact alternative.kind_ne_eof t ht

theorem Braces.kind_ne_eof : ∀ b : Braces, ∀ t ∈ b.tokens, t.kind ≠ .eof
  | .mk opening body closing => by
    simp only [Braces.tokens, List.mem_append, List.mem_cons, List.not_mem_nil, or_false]
    rintro t (rfl | ht | rfl)
    · simp [opening.property]
    · exact body.kind_ne_eof t ht
    · simp [closing.property]

theorem Sentence.kind_ne_eof : ∀ s : Sentence, ∀ t ∈ s.tokens, t.kind ≠ .eof
  | .binding sign name assign value stop => by
    simp only [Sentence.tokens, List.mem_append, List.mem_cons]
    rintro t (rfl | rfl | rfl | ht | ht)
    · simp [sign.property]
    · simp [name.property]
    · simp [assign.property]
    · exact value.kind_ne_eof t ht
    · exact kind_ne_eof_of_mem_stopTokens ht
  | .result sign value stop => by
    simp only [Sentence.tokens, List.mem_append, List.mem_cons]
    rintro t (rfl | ht | ht)
    · simp [sign.property]
    · exact value.kind_ne_eof t ht
    · exact kind_ne_eof_of_mem_stopTokens ht
  | .bare sign stop => by
    simp only [Sentence.tokens, List.mem_cons]
    rintro t (rfl | ht)
    · simp [sign.property]
    · exact kind_ne_eof_of_mem_stopTokens ht
  | .expression value stop => by
    simp only [Sentence.tokens, List.mem_append]
    rintro t (ht | ht)
    · exact value.kind_ne_eof t ht
    · exact kind_ne_eof_of_mem_stopTokens ht

theorem Passage.kind_ne_eof : ∀ p : Passage, ∀ t ∈ p.tokens, t.kind ≠ .eof
  | .nil => by simp [Passage.tokens]
  | .cons first rest => by
    simp only [Passage.tokens, List.mem_append]
    rintro t (ht | ht)
    · exact first.kind_ne_eof t ht
    · exact rest.kind_ne_eof t ht

end

/-! ## Viable texts -/

/-- The tokens are how some text begins that is accepted, with no end of input in it. -/
def Viable (tokens : List Token) : Prop :=
  ∃ more, (∀ t ∈ tokens ++ more, t.kind ≠ .eof) ∧
    (Parser.ofTokens (tokens ++ more)).program.2.diagnostics = []

theorem Viable.of_isPrefix {tokens longer : List Token} (h : Viable longer)
    (hpre : tokens <+: longer) : Viable tokens := by
  obtain ⟨between, rfl⟩ := hpre
  obtain ⟨more, heof, hclean⟩ := h
  rw [List.append_assoc] at heof hclean
  exact ⟨between ++ more, heof, hclean⟩

theorem viable_of_opens {tokens : List Token} (h : Opens (IsRun []) tokens) : Viable tokens := by
  obtain ⟨more, p, hsep, htokens⟩ := h
  have hnil : (Token.next []).kind = .eof := rfl
  have hread := Passage.readProgram_tokens hnil p hsep
  rw [htokens] at hread
  rw [List.append_nil] at htokens
  exact ⟨more, htokens ▸ p.kind_ne_eof, congrArg diagnostics hread⟩

/-- A token that is always reported first cannot be in a text that is accepted. -/
theorem not_viable_of_reported {good : List Token} {t : Token} {d : Diagnostic}
    (h : ∀ rest', rest'.head? = some t →
      (standard.readProgram (good ++ rest')).diagnostics.head? = some d) :
    ¬Viable (good ++ [t]) := by
  rintro ⟨more, -, hclean⟩
  have hread : (standard.readProgram (good ++ t :: more)).diagnostics = [] := by
    rwa [List.append_assoc] at hclean
  have hfirst := h (t :: more) rfl
  rw [hread] at hfirst
  cases hfirst

/-- **The first diagnostic names the first token that cannot stand where it is.** If the text is
viable it names the end of input. Otherwise it names the token behind the longest viable prefix. -/
theorem first_diagnostic_names (tokens : List Token) {d : Diagnostic} {others : List Diagnostic}
    (h : (Parser.ofTokens tokens).program.2.diagnostics = d :: others) :
    (Viable tokens → (∃ expected, d = .unexpected expected .eof) ∨ d = .noOpening .eof) ∧
      (¬Viable tokens → ∃ i t, Viable (tokens.take i) ∧
        (∀ start, start <+: tokens → Viable start → start.length ≤ i) ∧
        tokens[i]? = some t ∧ d.Names t) := by
  have hread : (standard.readProgram tokens).diagnostics = d :: others := h
  obtain ⟨good, rest, d', htokens, hgood, hnames, hfirst⟩ :=
    readProgram_faults tokens (hread ▸ List.cons_ne_nil d others)
  have hd : d = d' := by
    have hhead := hfirst rest rfl
    rw [← htokens, hread] at hhead
    exact Option.some.inj hhead
  subst hd
  have hviable : Viable good := viable_of_opens hgood
  cases rest with
  | nil =>
    rw [List.append_nil] at htokens
    refine ⟨fun _ => ?_, fun hnot => absurd (htokens ▸ hviable) hnot⟩
    cases d with
    | unexpected expected found => exact .inl ⟨expected, congrArg _ hnames⟩
    | noOpening kind => exact .inr (congrArg _ hnames)
    | invalidInteger literal => exact nomatch hnames.1
  | cons t behind =>
    have hpre : good ++ [t] <+: tokens := ⟨behind, by rw [htokens, List.append_assoc]; rfl⟩
    have hnot : ¬Viable (good ++ [t]) := not_viable_of_reported hfirst
    refine ⟨fun hall => absurd (hall.of_isPrefix hpre) hnot, fun _ => ?_⟩
    refine ⟨good.length, t, ?_, ?_, ?_, hnames⟩
    · rwa [htokens, List.take_left]
    · intro start hstart hstart'
      refine Nat.le_of_not_lt fun hlt => hnot (hstart'.of_isPrefix ?_)
      refine List.prefix_of_prefix_length_le hpre hstart ?_
      rw [List.length_append]
      exact hlt
    · rw [htokens, List.getElem?_append_right (Nat.le_refl _), Nat.sub_self]
      rfl

/-- In `let x + 1 =` three tokens are reported, and the first of them is what ends the viable
prefix. -/
theorem first_diagnostic_names_plus :
    let tokens : List Token :=
      [⟨.kwLet, "let"⟩, ⟨.ident, "x"⟩, ⟨.plus, "+"⟩, ⟨.int, "1"⟩, ⟨.assign, "="⟩]
    (Parser.ofTokens tokens).program.2.diagnostics =
        [.unexpected .assign .plus, .noOpening .plus, .noOpening .assign] ∧
      ¬Viable tokens ∧ ∃ i t, Viable (tokens.take i) ∧
        (∀ start, start <+: tokens → Viable start → start.length ≤ i) ∧
        tokens[i]? = some t ∧ (Diagnostic.unexpected .assign .plus).Names t := by
  intro tokens
  have h : (Parser.ofTokens tokens).program.2.diagnostics =
      [.unexpected .assign .plus, .noOpening .plus, .noOpening .assign] := by decide +kernel
  obtain ⟨hends, hnames⟩ := first_diagnostic_names tokens h
  have hnot : ¬Viable tokens := by
    intro hviable
    obtain ⟨expected, hd⟩ | hd := hends hviable
    · cases hd
    · cases hd
  exact ⟨h, hnot, hnames hnot⟩

end Grammar

end Treewalk
