import Mathlib.Data.List.TakeWhile
import Treewalk.Token.Scan

/-!
# The one way to cut a text

What scanning yields, said without a scanner. A text is tokens with gaps around them: `Gap` says
what a gap is made of, `IsSpelled` how a token is spelled and `IsLongest` that no longer prefix of
the text from its start on would have done. `Cut` puts them together.

The scanner's choice at a position meets all three. And there is no other choice: of two tokens
that are longest at one position neither can be the shorter, and a text spells one kind only,
because the scanner, run on that text alone, takes all of it and answers the kind
(`lexeme_of_spelled`).
-/

namespace Treewalk.Token

/-! ## Spellings -/

/-- The text of a kind that is always spelled the same: a glyph or a reserved word. -/
def Kind.fixed? : Kind → Option String
  | .assign => some "="
  | .plus => some "+"
  | .minus => some "-"
  | .bang => some "!"
  | .asterisk => some "*"
  | .slash => some "/"
  | .lt => some "<"
  | .gt => some ">"
  | .eq => some "=="
  | .notEq => some "!="
  | .comma => some ","
  | .semicolon => some ";"
  | .lparen => some "("
  | .rparen => some ")"
  | .lbrace => some "\x7b"
  | .rbrace => some "\x7d"
  | .kwFn => some "fn"
  | .kwLet => some "let"
  | .kwTrue => some "true"
  | .kwFalse => some "false"
  | .kwIf => some "if"
  | .kwElse => some "else"
  | .kwReturn => some "return"
  | .eof | .illegal | .ident | .int | .comment => none

/-- A character of a name. -/
def IsLetter (c : Char) : Prop := ('a' ≤ c ∧ c ≤ 'z') ∨ ('A' ≤ c ∧ c ≤ 'Z') ∨ c = '_'

/-- A decimal digit. -/
def IsDigit (c : Char) : Prop := '0' ≤ c ∧ c ≤ '9'

/-- A character of a gap outside comments: space, tab, the line ends, form feed, vertical tab. -/
def IsSpace (c : Char) : Prop := c ∈ [' ', '\t', '\n', '\r', '\x0c', '\x0b']

/-- The texts that spell a kind of token. A name is no reserved word, and the end of input,
comments and foreign characters have no spelling. -/
def Kind.Spelled : Kind → List Char → Prop
  | .ident, text =>
    text ≠ [] ∧ (∀ c ∈ text, IsLetter c) ∧ ∀ kind : Kind, kind.fixed? ≠ some (String.ofList text)
  | .int, text => text ≠ [] ∧ ∀ c ∈ text, IsDigit c
  | kind, text => kind.fixed? = some (String.ofList text)

/-- A comment: two slashes, and then anything within the line. -/
def IsComment (text : List Char) : Prop :=
  ∃ body, text = '/' :: '/' :: body ∧ ∀ c ∈ body, c ≠ '\n' ∧ c ≠ '\r'

/-- A character with which nothing starts. -/
def IsForeign (c : Char) : Prop :=
  ¬IsSpace c ∧ ∀ rest, ¬IsComment (c :: rest) ∧ ∀ kind : Kind, ¬kind.Spelled (c :: rest)

/-- The token is spelled as its kind says; an illegal one is a foreign character. -/
def IsSpelled (t : Token) : Prop :=
  t.kind.Spelled t.literal.toList ∨
    t.kind = .illegal ∧ ∃ c, t.literal.toList = [c] ∧ IsForeign c

/-- No longer prefix of the text from the token on is a spelling or a comment. -/
def IsLongest (t : Token) (rest : List Char) : Prop :=
  ∀ longer, longer <+: t.literal.toList ++ rest → t.literal.toList.length < longer.length →
    ¬IsComment longer ∧ ∀ kind : Kind, ¬kind.Spelled longer

/-- What separates tokens, in front of the text `behind`. A comment in it goes on up to the end of
its line, or of the text. -/
inductive Gap (behind : List Char) : List Char → Prop
  | nil : Gap behind []
  | space {c : Char} {gap : List Char} : IsSpace c → Gap behind gap → Gap behind (c :: gap)
  | comment {text gap : List Char} : IsComment text →
      (∀ c, (gap ++ behind).head? = some c → c = '\n' ∨ c = '\r') → Gap behind gap →
      Gap behind (text ++ gap)

/-- The text is cut into the tokens: a gap, the first token, a gap, and so on up to the last gap,
and every token is spelled as its kind says and as long as it can be. -/
inductive Cut : List Char → List Token → Prop
  | nil {gap : List Char} : Gap [] gap → Cut gap []
  | cons {gap rest : List Char} {t : Token} {tokens : List Token} :
      Gap (t.literal.toList ++ rest) gap → t.IsSpelled → t.IsLongest rest → Cut rest tokens →
      Cut (gap ++ (t.literal.toList ++ rest)) (t :: tokens)

/-! ## The scanner's tests -/

variable {c : Char} {cs : List Char} {kind : Kind}

theorem isNameChar_iff : isNameChar c = true ↔ IsLetter c := by
  have hupper : c.isUpper = decide ('A' ≤ c ∧ c ≤ 'Z') := rfl
  have hlower : c.isLower = (decide ('a' ≤ c) && decide (c ≤ 'z')) := rfl
  have hname : isNameChar c = (c.isUpper || c.isLower || c == '_') := rfl
  simp only [hname, hupper, hlower, IsLetter, Bool.or_eq_true, Bool.and_eq_true,
    decide_eq_true_eq, beq_iff_eq]
  rw [or_comm (a := 'A' ≤ c ∧ c ≤ 'Z'), or_assoc]

theorem isDigit_iff : c.isDigit = true ↔ IsDigit c := by
  simp only [IsDigit, Char.isDigit, Bool.and_eq_true, decide_eq_true_eq, Char.le_def, ge_iff_le]

theorem isBlank_iff : isBlank c = true ↔ IsSpace c := by
  simp [isBlank, IsSpace, or_assoc]

theorem isLineEnd_iff : isLineEnd c = true ↔ c = '\n' ∨ c = '\r' := by
  simp [isLineEnd]

theorem not_isLineEnd_iff : (!isLineEnd c) = true ↔ c ≠ '\n' ∧ c ≠ '\r' := by
  rw [Bool.not_eq_true', Bool.eq_false_iff, Ne, isLineEnd_iff, not_or]

/-- A digit is no letter. -/
theorem IsDigit.isNameChar_eq_false (h : IsDigit c) : isNameChar c = false := by
  rw [Bool.eq_false_iff, Ne, isNameChar_iff]
  rintro (⟨ha, -⟩ | ⟨hA, -⟩ | rfl)
  · exact absurd (Char.le_trans ha h.2) (by decide)
  · exact absurd (Char.le_trans hA h.2) (by decide)
  · exact absurd h.2 (by decide)

/-- How a comment starts. -/
theorem head_of_isComment (h : IsComment (c :: cs)) : c = '/' ∧ cs.head? = some '/' := by
  obtain ⟨body, heq, -⟩ := h
  obtain ⟨rfl, rfl⟩ := List.cons.inj heq
  exact ⟨rfl, rfl⟩

/-! ## A spelling, scanned on its own -/

/-- A fixed text is scanned as its kind, all of it. -/
theorem lexeme_of_fixed {s : String} (h : kind.fixed? = some s) :
    ∃ c cs, s.toList = c :: cs ∧ lexeme c cs = (⟨kind, s⟩, []) := by
  cases kind with
  | eof | illegal | ident | int | comment => cases h
  | _ =>
    obtain rfl := Option.some.inj h
    exact ⟨_, _, rfl, rfl⟩

/-- The words that scanning reserves have the fixed text of their kind. -/
theorem fixed?_of_lookup {word : String} (h : keywords.lookup word = some kind) :
    kind.fixed? = some word := by
  have hall : ∀ entry ∈ keywords, entry.2.fixed? = some entry.1 := by decide
  obtain ⟨before, after, hkeywords, -⟩ := List.lookup_eq_some_iff.mp h
  exact hall (word, kind) (hkeywords ▸ List.mem_append_right _ List.mem_cons_self)

/-- And no fixed text of letters is missing among them. -/
theorem lookup_of_fixed? {text : List Char} (h : kind.fixed? = some (String.ofList text))
    (hletters : ∀ c ∈ text, IsLetter c) : keywords.lookup (String.ofList text) = some kind := by
  have hnames : (String.ofList text).toList.all isNameChar = true := by
    rw [String.toList_ofList, List.all_eq_true]
    exact fun c hc => isNameChar_iff.mpr (hletters c hc)
  cases kind with
  | eof | illegal | ident | int | comment => cases h
  | kwFn | kwLet | kwTrue | kwFalse | kwIf | kwElse | kwReturn =>
    rw [← Option.some.inj h]
    rfl
  | _ =>
    -- a glyph has no letters
    rw [← Option.some.inj h] at hnames
    cases hnames

/-- **A spelling is scanned as its kind**, all of it, where nothing follows. -/
theorem lexeme_of_spelled (h : kind.Spelled (c :: cs)) :
    lexeme c cs = (⟨kind, String.ofList (c :: cs)⟩, []) := by
  cases kind with
  | ident =>
    obtain ⟨-, hletters, hfixed⟩ := h
    have hname : ∀ d ∈ c :: cs, isNameChar d = true :=
      fun d hd => isNameChar_iff.mpr (hletters d hd)
    have hcs : ∀ d ∈ cs, isNameChar d = true := fun d hd => hname d (List.mem_cons_of_mem _ hd)
    have hlookup : keywords.lookup (String.ofList (c :: cs)) = none := by
      rw [Option.eq_none_iff_forall_ne_some]
      exact fun kind hkind => hfixed kind (fixed?_of_lookup hkind)
    rw [lexeme, if_pos (hname c List.mem_cons_self), word, List.takeWhile_eq_self_iff.mpr hcs,
      List.dropWhile_eq_nil_iff.mpr hcs]
    simp only [Kind.ofWord, hlookup, Option.getD_none]
  | int =>
    obtain ⟨-, hdigits⟩ := h
    have hcs : ∀ d ∈ cs, d.isDigit = true :=
      fun d hd => isDigit_iff.mpr (hdigits d (List.mem_cons_of_mem _ hd))
    have hc := hdigits c List.mem_cons_self
    rw [lexeme, if_neg (Bool.eq_false_iff.mp hc.isNameChar_eq_false), if_pos (isDigit_iff.mpr hc),
      numeral, List.takeWhile_eq_self_iff.mpr hcs, List.dropWhile_eq_nil_iff.mpr hcs]
  | _ =>
    obtain ⟨c', cs', htext, hlexeme⟩ := lexeme_of_fixed h
    rw [String.toList_ofList] at htext
    obtain ⟨rfl, rfl⟩ := List.cons.inj htext
    exact hlexeme

/-- Every spelling has a first character. -/
theorem exists_cons_of_spelled {text : List Char} (h : kind.Spelled text) :
    ∃ c cs, text = c :: cs := by
  cases kind with
  | ident | int => exact List.exists_cons_of_ne_nil h.1
  | _ =>
    obtain ⟨c, cs, htext, -⟩ := lexeme_of_fixed h
    exact ⟨c, cs, by rw [← htext, String.toList_ofList]⟩

/-- **A text spells one kind only.** -/
theorem kind_unique {kind' : Kind} {text : List Char} (h : kind.Spelled text)
    (h' : kind'.Spelled text) : kind = kind' := by
  obtain ⟨c, cs, rfl⟩ := exists_cons_of_spelled h
  have heq := (lexeme_of_spelled h).symm.trans (lexeme_of_spelled h')
  exact congrArg (fun r => r.1.kind) heq

/-! ## The scanner's choice -/

/-- Nothing is lost between a token and what is left behind it. -/
theorem literal_append_lexeme (c : Char) (cs : List Char) :
    (lexeme c cs).1.literal.toList ++ (lexeme c cs).2 = c :: cs := by
  unfold lexeme
  split
  · simp [word, List.takeWhile_append_dropWhile]
  · split
    · simp [numeral, List.takeWhile_append_dropWhile]
    · unfold glyph
      split
      · simp
      · simp
      · simp

theorem spelled_of_fixed {text : List Char} (h : kind.fixed? = some (String.ofList text)) :
    kind.Spelled text := by
  cases kind with
  | ident | int => cases h
  | _ => exact h

theorem spelled_word (h : isNameChar c = true) (cs : List Char) :
    (word c cs).1.kind.Spelled (word c cs).1.literal.toList := by
  have hletters : ∀ d ∈ c :: cs.takeWhile isNameChar, IsLetter d := by
    intro d hd
    rcases List.mem_cons.mp hd with rfl | hd
    · exact isNameChar_iff.mp h
    · exact isNameChar_iff.mp (List.mem_takeWhile_imp hd)
  simp only [word, Kind.ofWord, String.toList_ofList]
  cases hlookup : keywords.lookup (String.ofList (c :: cs.takeWhile isNameChar)) with
  | none =>
    refine ⟨List.cons_ne_nil _ _, hletters, fun kind hkind => ?_⟩
    rw [lookup_of_fixed? hkind hletters] at hlookup
    cases hlookup
  | some kind => exact spelled_of_fixed (fixed?_of_lookup hlookup)

theorem spelled_numeral (h : c.isDigit = true) (cs : List Char) :
    (numeral c cs).1.kind.Spelled (numeral c cs).1.literal.toList := by
  simp only [numeral, String.toList_ofList]
  refine ⟨List.cons_ne_nil _ _, fun d hd => ?_⟩
  rcases List.mem_cons.mp hd with rfl | hd
  · exact isDigit_iff.mp h
  · exact isDigit_iff.mp (List.mem_takeWhile_imp hd)

/-- A character that spells a kind by itself. -/
theorem fixed?_of_ofChar? (h : Kind.ofChar? c = some kind) :
    kind.fixed? = some (String.ofList [c]) := by
  unfold Kind.ofChar? at h
  split at h
  case h_15 => cases h
  all_goals
    obtain rfl := Option.some.inj h
    rfl

/-- A character that no test accepts is a token by itself. -/
theorem lexeme_eq_illegal (hname : isNameChar c = false) (hdigit : c.isDigit = false)
    (hchar : Kind.ofChar? c = none) (cs : List Char) :
    lexeme c cs = (⟨.illegal, String.ofList [c]⟩, cs) := by
  rw [lexeme, if_neg (Bool.eq_false_iff.mp hname), if_neg (Bool.eq_false_iff.mp hdigit)]
  unfold glyph
  split
  · cases hchar
  · cases hchar
  · rw [hchar]
    rfl

/-- And no spelling starts with it. -/
theorem not_spelled_of_illegal (h : (lexeme c cs).1.kind = .illegal) (kind : Kind) :
    ¬kind.Spelled (c :: cs) := by
  intro hspelled
  rw [lexeme_of_spelled hspelled] at h
  obtain rfl : kind = .illegal := h
  cases hspelled

theorem not_spelled_of_isSpace (h : IsSpace c) (kind : Kind) : ¬kind.Spelled (c :: cs) := by
  refine not_spelled_of_illegal ?_ kind
  obtain ⟨hname, hdigit, hchar⟩ :
      isNameChar c = false ∧ c.isDigit = false ∧ Kind.ofChar? c = none := by
    simp only [IsSpace, List.mem_cons, List.not_mem_nil, or_false] at h
    rcases h with rfl | rfl | rfl | rfl | rfl | rfl <;> exact ⟨rfl, rfl, rfl⟩
  rw [lexeme_eq_illegal hname hdigit hchar]

/-- **The scanner's choice is spelled as its kind says.** -/
theorem isSpelled_lexeme (hspace : ¬IsSpace c) (cs : List Char) : (lexeme c cs).1.IsSpelled := by
  by_cases hname : isNameChar c = true
  · rw [lexeme, if_pos hname]
    exact .inl (spelled_word hname cs)
  by_cases hdigit : c.isDigit = true
  · rw [lexeme, if_neg hname, if_pos hdigit]
    exact .inl (spelled_numeral hdigit cs)
  rw [Bool.not_eq_true] at hname hdigit
  cases hchar : Kind.ofChar? c with
  | none =>
    rw [lexeme_eq_illegal hname hdigit hchar]
    refine .inr ⟨rfl, c, String.toList_ofList, hspace, fun rest => ⟨fun hcomment => ?_, ?_⟩⟩
    · obtain ⟨rfl, -⟩ := head_of_isComment hcomment
      cases hchar
    · exact not_spelled_of_illegal (by rw [lexeme_eq_illegal hname hdigit hchar])
  | some kind =>
    rw [lexeme, if_neg (Bool.eq_false_iff.mp hname), if_neg (Bool.eq_false_iff.mp hdigit)]
    refine .inl ?_
    unfold glyph
    split
    · exact spelled_of_fixed (congrArg some String.ofList_toList.symm)
    · exact spelled_of_fixed (congrArg some String.ofList_toList.symm)
    · simp only [hchar, Option.getD_some, String.toList_ofList]
      exact spelled_of_fixed (fixed?_of_ofChar? hchar)

theorem one_le_length_lexeme (c : Char) (cs : List Char) :
    1 ≤ (lexeme c cs).1.literal.toList.length := by
  have hlen := congrArg List.length (literal_append_lexeme c cs)
  have hle := length_lexeme_le c cs
  rw [List.length_append, List.length_cons] at hlen
  omega

/-- A text that is one token is part of the token wherever the text goes on. -/
theorem length_le_of_lexeme (h : (lexeme c cs).2 = []) (more : List Char) :
    (c :: cs).length ≤ (lexeme c (cs ++ more)).1.literal.toList.length := by
  unfold lexeme at h ⊢
  split
  · rename_i hname
    rw [if_pos hname] at h
    have hall : ∀ d ∈ cs, isNameChar d = true := List.dropWhile_eq_nil_iff.mp h
    simp only [word, String.toList_ofList, List.takeWhile_append_of_pos hall]
    simp
  · rename_i hname
    rw [if_neg hname] at h
    split
    · rename_i hdigit
      rw [if_pos hdigit] at h
      have hall : ∀ d ∈ cs, d.isDigit = true := List.dropWhile_eq_nil_iff.mp h
      simp only [numeral, String.toList_ofList, List.takeWhile_append_of_pos hall]
      simp
    · rename_i hdigit
      rw [if_neg hdigit] at h
      unfold glyph at h
      split at h
      · obtain rfl : _ = [] := h
        show 2 ≤ "==".toList.length
        decide
      · obtain rfl : _ = [] := h
        show 2 ≤ "!=".toList.length
        decide
      · obtain rfl : cs = [] := h
        have hlen := one_le_length_lexeme c more
        rwa [lexeme, if_neg hname, if_neg hdigit] at hlen

/-- **The scanner's choice is the longest**, in front of whatever is not a comment. -/
theorem isLongest_lexeme (hcomment : ¬(c = '/' ∧ cs.head? = some '/')) :
    (lexeme c cs).1.IsLongest (lexeme c cs).2 := by
  intro longer hpre hlt
  rw [literal_append_lexeme] at hpre
  obtain ⟨more, hmore⟩ := hpre
  cases longer with
  | nil => exact absurd hlt (Nat.not_lt_zero _)
  | cons d ds =>
    rw [List.cons_append] at hmore
    obtain ⟨rfl, rfl⟩ := List.cons.inj hmore
    refine ⟨fun h => hcomment ?_, fun kind h => ?_⟩
    · obtain ⟨hd, hds⟩ := head_of_isComment h
      exact ⟨hd, by rw [List.head?_append, hds]; rfl⟩
    · -- a spelling is one token, so the token here is no shorter
      have hone : (lexeme d ds).2 = [] := by rw [lexeme_of_spelled h]
      exact absurd (length_le_of_lexeme hone more) (Nat.not_le.mpr hlt)

/-! ## No other choice -/

section Unique

variable {t u : Token} {rest rest' : List Char}

/-- A token has a first character, which is no space. -/
theorem IsSpelled.exists_cons (h : t.IsSpelled) :
    ∃ c cs, t.literal.toList = c :: cs ∧ ¬IsSpace c := by
  rcases h with h | ⟨-, c, htext, hforeign⟩
  · obtain ⟨c, cs, htext⟩ := exists_cons_of_spelled h
    rw [htext] at h
    exact ⟨c, cs, htext, fun hspace => not_spelled_of_isSpace hspace _ h⟩
  · exact ⟨c, [], htext, hforeign.1⟩

/-- A token is no longer than the longest at its place. -/
theorem IsSpelled.length_le (ht : t.IsSpelled) (hu : u.IsSpelled) (hlongest : u.IsLongest rest')
    (heq : t.literal.toList ++ rest = u.literal.toList ++ rest') :
    t.literal.toList.length ≤ u.literal.toList.length := by
  rcases ht with ht | ⟨-, c, htext, -⟩
  · by_contra hlt
    have hpre : t.literal.toList <+: u.literal.toList ++ rest' := ⟨rest, heq⟩
    exact (hlongest _ hpre (Nat.not_le.mp hlt)).2 _ ht
  · obtain ⟨d, ds, hd, -⟩ := hu.exists_cons
    rw [htext, hd]
    exact Nat.succ_le_succ (Nat.zero_le _)

theorem IsSpelled.kind_eq (ht : t.IsSpelled) (hu : u.IsSpelled)
    (heq : t.literal.toList = u.literal.toList) : t.kind = u.kind := by
  rcases ht with ht | ⟨htkind, c, htext, hforeign⟩ <;>
    rcases hu with hu | ⟨hukind, d, hutext, hforeign'⟩
  · exact kind_unique ht (heq ▸ hu)
  · rw [heq, hutext] at ht
    exact absurd ht ((hforeign'.2 []).2 _)
  · rw [← heq, htext] at hu
    exact absurd hu ((hforeign.2 []).2 _)
  · rw [htkind, hukind]

/-- **At one position of a text there is one longest token.** -/
theorem eq_of_isLongest (ht : t.IsSpelled) (hu : u.IsSpelled) (hlt : t.IsLongest rest)
    (hlu : u.IsLongest rest') (heq : t.literal.toList ++ rest = u.literal.toList ++ rest') :
    t = u ∧ rest = rest' := by
  have hlen := Nat.le_antisymm (ht.length_le hu hlu heq) (hu.length_le ht hlt heq.symm)
  obtain ⟨htext, hrest⟩ := List.append_inj heq hlen
  have hkind := ht.kind_eq hu htext
  have hliteral := String.toList_injective htext
  cases t
  cases u
  exact ⟨by rw [mk.injEq]; exact ⟨hkind, hliteral⟩, hrest⟩

/-- No token is longest where a comment starts. -/
theorem not_comment_of_isLongest (ht : t.IsSpelled) (hlt : t.IsLongest rest)
    (heq : t.literal.toList ++ rest = c :: cs) : ¬(c = '/' ∧ cs.head? = some '/') := by
  rintro ⟨rfl, hhead⟩
  obtain ⟨cs', rfl⟩ := List.head?_eq_some_iff.mp hhead
  have hcomment : IsComment ['/', '/'] := ⟨[], rfl, nofun⟩
  by_cases hlen : t.literal.toList.length < 2
  · have hpre : ['/', '/'] <+: t.literal.toList ++ rest := ⟨cs', heq.symm⟩
    exact (hlt _ hpre hlen).1 hcomment
  · -- two slashes spell nothing: scanned on their own they are two tokens
    obtain ⟨d, ds, htext, -⟩ := ht.exists_cons
    rw [htext] at hlen heq
    cases ds with
    | nil => exact hlen Nat.one_lt_two
    | cons e es =>
      simp only [List.cons_append, List.cons.injEq] at heq
      obtain ⟨rfl, rfl, -⟩ := heq
      rcases ht with ht | ⟨-, c, hc, -⟩
      · rw [htext] at ht
        have hnone : '/' :: es = [] := congrArg Prod.snd (lexeme_of_spelled ht)
        cases hnone
      · rw [htext] at hc
        cases hc

end Unique

/-! ## Gaps -/

theorem Cut.space {tokens : List Token} (hc : IsSpace c) (h : Cut cs tokens) :
    Cut (c :: cs) tokens := by
  cases h with
  | nil hgap => exact .nil (.space hc hgap)
  | cons hgap hspelled hlongest hrest => exact .cons (.space hc hgap) hspelled hlongest hrest

theorem Cut.comment {text rest : List Char} {tokens : List Token} (htext : IsComment text)
    (hend : ∀ d, rest.head? = some d → d = '\n' ∨ d = '\r') (h : Cut rest tokens) :
    Cut (text ++ rest) tokens := by
  cases h with
  | nil hgap =>
    refine .nil (.comment htext ?_ hgap)
    rwa [List.append_nil]
  | cons hgap hspelled hlongest hrest =>
    rw [← List.append_assoc]
    exact .cons (.comment htext hend hgap) hspelled hlongest hrest

/-- Scanning passes over a gap. -/
theorem scan_gap {behind gap : List Char} (h : Gap behind gap) :
    scan (gap ++ behind) = scan behind := by
  induction h with
  | nil => rfl
  | space hc _ ih => rw [List.cons_append, scan_blank (isBlank_iff.mpr hc), ih]
  | @comment text gap htext hend _ ih =>
    obtain ⟨body, rfl, hbody⟩ := htext
    have hskip : ∀ d ∈ body, (!isLineEnd d) = true := fun d hd =>
      not_isLineEnd_iff.mpr (hbody d hd)
    have hstop : (gap ++ behind).dropWhile (fun d => !isLineEnd d) = gap ++ behind := by
      cases hg : gap ++ behind with
      | nil => rfl
      | cons d ds =>
        have hd : isLineEnd d = true := isLineEnd_iff.mpr (hend d (by rw [hg]; rfl))
        rw [List.dropWhile_cons, hd]
        rfl
    simp only [List.cons_append, List.append_assoc]
    rw [scan_comment, List.dropWhile_append_of_pos hskip, hstop, ih]

/-! ## The whole text -/

/-- **What is scanned is cut.** -/
theorem cut_scan (cs : List Char) : Cut cs (scan cs) := by
  induction cs using scan.induct with
  | case1 =>
    rw [scan_nil]
    exact .nil .nil
  | case2 c cs hblank ih =>
    rw [scan_blank hblank]
    exact ih.space (isBlank_iff.mp hblank)
  | case3 c cs hblank hcomment ih =>
    obtain ⟨rfl, hhead⟩ := hcomment
    obtain ⟨cs, rfl⟩ := List.head?_eq_some_iff.mp hhead
    rw [List.dropWhile_cons, if_pos (by decide)] at ih
    rw [scan_comment]
    have hbody : IsComment ('/' :: '/' :: cs.takeWhile fun d => !isLineEnd d) := by
      refine ⟨_, rfl, fun d hd => ?_⟩
      have hd := List.mem_takeWhile_imp hd
      exact not_isLineEnd_iff.mp hd
    have hcut := ih.comment hbody fun d hd => ?_
    · rwa [List.cons_append, List.cons_append, List.takeWhile_append_dropWhile] at hcut
    · -- what is left starts with the end of the line
      have hline := List.head?_dropWhile_not (fun d => !isLineEnd d) cs
      rw [hd] at hline
      exact isLineEnd_iff.mp (by simpa using hline)
  | case4 c cs hblank hcomment ih =>
    rw [scan_lexeme (Bool.eq_false_iff.mpr hblank) hcomment]
    have hspace : ¬IsSpace c := fun h => hblank (isBlank_iff.mpr h)
    have hcut := Cut.cons .nil (isSpelled_lexeme hspace cs) (isLongest_lexeme hcomment) ih
    rwa [List.nil_append, literal_append_lexeme] at hcut

/-- **What is cut is scanned.** -/
theorem eq_scan_of_cut {tokens : List Token} (h : Cut cs tokens) : tokens = scan cs := by
  induction h with
  | @nil gap hgap =>
    have hscan := scan_gap hgap
    rw [List.append_nil, scan_nil] at hscan
    exact hscan.symm
  | @cons gap rest t tokens hgap hspelled hlongest _ ih =>
    obtain ⟨c, cs, htext, hspace⟩ := hspelled.exists_cons
    have heq : t.literal.toList ++ rest = c :: (cs ++ rest) := by rw [htext, List.cons_append]
    have hcomment := not_comment_of_isLongest hspelled hlongest heq
    have hblank : isBlank c = false := by
      rw [Bool.eq_false_iff, Ne, isBlank_iff]
      exact hspace
    -- the scanner's choice is longest here, and so is `t`
    obtain ⟨ht, hrest⟩ := eq_of_isLongest hspelled (isSpelled_lexeme hspace (cs ++ rest)) hlongest
      (isLongest_lexeme hcomment) (heq.trans (literal_append_lexeme c (cs ++ rest)).symm)
    rw [scan_gap hgap, heq, scan_lexeme hblank hcomment, ← ht, ← hrest, ← ih]

/-- **A text can be cut in one way, and scanning finds it.** -/
theorem cut_iff_eq_ofSource (source : String) (tokens : List Token) :
    Cut source.toList tokens ↔ tokens = ofSource source :=
  ⟨eq_scan_of_cut, fun h => h ▸ cut_scan source.toList⟩

/-- The end of input is no token of a text. -/
theorem kind_ne_eof_of_mem_scan (cs : List Char) : ∀ t ∈ scan cs, t.kind ≠ .eof := by
  induction cs using scan.induct with
  | case1 => simp
  | case2 c cs hblank ih => rwa [scan_blank hblank]
  | case3 c cs hblank hcomment ih => rwa [scan, if_neg hblank, if_pos hcomment]
  | case4 c cs hblank hcomment ih =>
    rw [scan_lexeme (Bool.eq_false_iff.mpr hblank) hcomment]
    intro t ht
    rcases List.mem_cons.mp ht with rfl | ht
    · intro heof
      rcases isSpelled_lexeme (fun h => hblank (isBlank_iff.mpr h)) cs with hspelled | ⟨hkind, -⟩
      · rw [heof] at hspelled
        cases hspelled
      · rw [heof] at hkind
        cases hkind
    · exact ih t ht

end Treewalk.Token
