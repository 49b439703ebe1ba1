import Mathlib.Data.List.Infix
import Treewalk.Proofs.Lexemes

/-!
# Separators

Longest tokens do not go well with the joining of texts: `=` in front of `=` is one token, and so
are two words side by side. A blank between the texts keeps them apart. No token goes on over a
blank, so every state in which the scanner can be at the end of the first text is left behind, but
for one: a comment goes on over blanks, and only the end of its line ends it.

`EndsInComment` says of a text alone whether it is in that state at its end. Where it is not, a
blank splits the tokens (`scan_append_blank`), and a line end splits them anywhere. Where it is,
what comes next is lost up to the end of the line (`scan_append_of_endsInComment`).
-/

namespace Treewalk.Token

variable {c d : Char} {cs : List Char}

/-! ## No token goes on over a blank -/

/-- A run of characters ends where one does not belong to it, whatever comes after. -/
theorem takeWhile_append_cons {p : Char → Bool} (hd : p d = false) (cs more : List Char) :
    (cs ++ d :: more).takeWhile p = cs.takeWhile p := by
  induction cs with
  | nil => simp [hd]
  | cons c cs ih => simp [List.takeWhile_cons, ih]

theorem dropWhile_append_cons {p : Char → Bool} (hd : p d = false) (cs more : List Char) :
    (cs ++ d :: more).dropWhile p = cs.dropWhile p ++ d :: more := by
  induction cs with
  | nil => simp [hd]
  | cons c cs ih =>
    rw [List.cons_append, List.dropWhile_cons, List.dropWhile_cons]
    split
    · exact ih
    · rfl

/-- Only an equals sign widens a glyph. -/
theorem glyph_of_head_ne (h : cs.head? ≠ some '=') (c : Char) :
    glyph c cs = (⟨(Kind.ofChar? c).getD .illegal, String.ofList [c]⟩, cs) := by
  unfold glyph
  split
  · exact absurd rfl h
  · exact absurd rfl h
  · rfl

theorem glyph_append_cons (hd : d ≠ '=') (c : Char) (cs more : List Char) :
    glyph c (cs ++ d :: more) = ((glyph c cs).1, (glyph c cs).2 ++ d :: more) := by
  cases cs with
  | nil =>
    have hhead : (d :: more).head? ≠ some '=' := fun h => hd (Option.some.inj h)
    rw [List.nil_append, glyph_of_head_ne hhead, glyph_of_head_ne (by decide)]
    rfl
  | cons e es =>
    unfold glyph
    split <;> simp_all

/-- A blank is part of no token. -/
theorem not_lengthens_of_isBlank (h : isBlank d) :
    isNameChar d = false ∧ d.isDigit = false ∧ d ≠ '=' ∧ d ≠ '/' := by
  have hd := isBlank_iff.mp h
  simp only [IsSpace, List.mem_cons, List.not_mem_nil, or_false] at hd
  rcases hd with rfl | rfl | rfl | rfl | rfl | rfl <;> decide

theorem isBlank_of_isLineEnd (h : isLineEnd d) : isBlank d := by
  rcases isLineEnd_iff.mp h with rfl | rfl <;> rfl

/-- **No token goes on over a blank.** -/
theorem lexeme_append_blank (h : isBlank d) (c : Char) (cs more : List Char) :
    lexeme c (cs ++ d :: more) = ((lexeme c cs).1, (lexeme c cs).2 ++ d :: more) := by
  obtain ⟨hname, hdigit, hequals, -⟩ := not_lengthens_of_isBlank h
  unfold lexeme
  split
  · simp only [word, takeWhile_append_cons hname, dropWhile_append_cons hname]
  · split
    · simp only [numeral, takeWhile_append_cons hdigit, dropWhile_append_cons hdigit]
    · exact glyph_append_cons hequals c cs more

/-- In front of a blank the first token is the one there would be at the end of the text. -/
theorem scan_lexeme_append_blank (hd : isBlank d) (hblank : isBlank c = false)
    (hcomment : ¬(c = '/' ∧ cs.head? = some '/')) (more : List Char) :
    scan (c :: (cs ++ d :: more)) = (lexeme c cs).1 :: scan ((lexeme c cs).2 ++ d :: more) := by
  have hcomment' : ¬(c = '/' ∧ (cs ++ d :: more).head? = some '/') := by
    rintro ⟨hc, hhead⟩
    cases cs with
    | nil => exact (not_lengthens_of_isBlank hd).2.2.2 (Option.some.inj hhead)
    | cons e es => exact hcomment ⟨hc, hhead⟩
  rw [scan_lexeme hblank hcomment', lexeme_append_blank hd]

/-! ## Texts that end inside a comment -/

/-- The text ends inside a comment: there is a comment that goes on up to its end. Two slashes next
to each other are always part of a comment, so this is a matter of the text's last line alone. -/
def EndsInComment (text : List Char) : Prop := ∃ comment, IsComment comment ∧ comment <:+ text

instance : DecidablePred IsComment := fun text =>
  decidable_of_iff (text.take 2 = ['/', '/'] ∧ (text.drop 2).all fun c => !isLineEnd c) <| by
    simp only [List.all_eq_true, not_isLineEnd_iff]
    constructor
    · rintro ⟨hslashes, hbody⟩
      exact ⟨text.drop 2, by rw [← List.take_append_drop 2 text, hslashes]; rfl, hbody⟩
    · rintro ⟨body, rfl, hbody⟩
      exact ⟨rfl, hbody⟩

instance : DecidablePred EndsInComment := fun text =>
  decidable_of_iff (text.tails.any fun comment => decide (IsComment comment)) <| by
    simp only [EndsInComment, List.any_eq_true, decide_eq_true_eq, List.mem_tails, and_comm]

theorem EndsInComment.of_suffix {rest : List Char} (h : EndsInComment rest) (hrest : rest <:+ cs) :
    EndsInComment cs := by
  obtain ⟨comment, hcomment, hsuffix⟩ := h
  exact ⟨comment, hcomment, hsuffix.trans hrest⟩

theorem suffix_lexeme (c : Char) (cs : List Char) : (lexeme c cs).2 <:+ c :: cs :=
  ⟨_, literal_append_lexeme c cs⟩

/-- Two slashes start a comment that is over, or one that the text ends in. -/
theorem endsInComment_of_dropWhile (h : cs.dropWhile (fun e => !isLineEnd e) = []) :
    EndsInComment ('/' :: '/' :: cs) := by
  have hbody : ∀ e ∈ cs, e ≠ '\n' ∧ e ≠ '\r' := fun e he =>
    not_isLineEnd_iff.mp (List.dropWhile_eq_nil_iff.mp h e he)
  exact ⟨_, ⟨cs, rfl, hbody⟩, List.suffix_rfl⟩

/-- **Blanks split the tokens** of a text that does not end inside a comment, and line ends split
those of every text. -/
theorem scan_append_blank (hd : isBlank d) (cs more : List Char)
    (h : isLineEnd d = true ∨ ¬EndsInComment cs) :
    scan (cs ++ d :: more) = scan cs ++ scan more := by
  induction cs using scan.induct with
  | case1 => rw [List.nil_append, scan_blank hd, scan_nil, List.nil_append]
  | case2 c cs hblank ih =>
    have hrest := h.imp_right (mt (EndsInComment.of_suffix · (List.suffix_cons c cs)))
    rw [List.cons_append, scan_blank hblank, scan_blank hblank, ih hrest]
  | case3 c cs hblank hcomment ih =>
    obtain ⟨rfl, hhead⟩ := hcomment
    obtain ⟨cs, rfl⟩ := List.head?_eq_some_iff.mp hhead
    rw [List.dropWhile_cons, if_pos (by decide)] at ih
    have hdrop : (cs ++ d :: more).dropWhile (fun e => !isLineEnd e) =
        cs.dropWhile (fun e => !isLineEnd e) ++ d :: more := by
      rcases h with hend | hopen
      · exact dropWhile_append_cons (by rw [hend]; rfl) cs more
      · -- the comment is over before the text is
        have hne : ¬(cs.dropWhile fun e => !isLineEnd e).isEmpty = true := fun hnil =>
          hopen (endsInComment_of_dropWhile (List.isEmpty_iff.mp hnil))
        rw [List.dropWhile_append, if_neg hne]
    have hsuffix : cs.dropWhile (fun e => !isLineEnd e) <:+ '/' :: '/' :: cs :=
      (List.dropWhile_suffix _).trans ⟨['/', '/'], rfl⟩
    have hrest := h.imp_right (mt (EndsInComment.of_suffix · hsuffix))
    rw [List.cons_append, List.cons_append, scan_comment, scan_comment, hdrop, ih hrest]
  | case4 c cs hblank hcomment ih =>
    have hblank' := Bool.eq_false_iff.mpr hblank
    have hrest := h.imp_right (mt (EndsInComment.of_suffix · (suffix_lexeme c cs)))
    rw [List.cons_append, scan_lexeme_append_blank hd hblank' hcomment, ih hrest,
      scan_lexeme hblank' hcomment, List.cons_append]

/-- **Lines are scanned one by one**, also where the first one ends in a comment. -/
theorem scan_append_lineEnd (h : isLineEnd d) (cs more : List Char) :
    scan (cs ++ d :: more) = scan cs ++ scan more :=
  scan_append_blank (isBlank_of_isLineEnd h) cs more (.inl h)

/-! ## What a comment takes with it -/

/-- A token with a slash in it is nothing but the slash. -/
theorem literal_of_slash_mem (h : '/' ∈ (lexeme c cs).1.literal.toList) :
    (lexeme c cs).1.literal.toList = ['/'] := by
  unfold lexeme at h ⊢
  split at h
  · rename_i hname
    simp only [word, String.toList_ofList, List.mem_cons] at h
    rcases h with rfl | h
    · cases hname
    · cases List.mem_takeWhile_imp h
  · rename_i hname
    rw [if_neg hname]
    split at h
    · rename_i hdigit
      simp only [numeral, String.toList_ofList, List.mem_cons] at h
      rcases h with rfl | h
      · cases hdigit
      · cases List.mem_takeWhile_imp h
    · rename_i hdigit
      rw [if_neg hdigit]
      unfold glyph at h ⊢
      split at h
      · simp at h
      · simp at h
      · rw [String.toList_ofList, List.mem_singleton] at h
        rw [String.toList_ofList, h]

/-- Where no comment starts, the one that the text ends in starts behind the first token. -/
theorem EndsInComment.behind_lexeme (h : EndsInComment (c :: cs))
    (hcomment : ¬(c = '/' ∧ cs.head? = some '/')) : EndsInComment (lexeme c cs).2 := by
  obtain ⟨comment, hbody, hsuffix⟩ := h
  refine ⟨comment, hbody, ?_⟩
  rcases List.suffix_or_suffix_of_suffix hsuffix (suffix_lexeme c cs) with hin | ⟨front, hfront⟩
  · exact hin
  cases front with
  | nil => exact ⟨[], hfront.symm⟩
  | cons e es =>
    -- otherwise the token has the first slash of the comment, so it has nothing else
    exfalso
    obtain ⟨before, hbefore⟩ := hsuffix
    have hwhole : (before ++ e :: es) ++ (lexeme c cs).2 =
        (lexeme c cs).1.literal.toList ++ (lexeme c cs).2 := by
      rw [List.append_assoc, hfront, hbefore, literal_append_lexeme]
    have hliteral := List.append_cancel_right hwhole
    have hslash : e = '/' := by
      rw [← hfront, List.cons_append] at hbody
      exact (head_of_isComment hbody).1
    rw [literal_of_slash_mem (by rw [← hliteral, hslash]; simp)] at hliteral
    cases before with
    | nil =>
      rw [List.nil_append] at hbefore
      exact hcomment (head_of_isComment (hbefore ▸ hbody))
    | cons b before => simp at hliteral

/-- The comment that a text ends in starts behind all its line ends. -/
theorem EndsInComment.behind_lineEnd {text rest : List Char} {e : Char} (h : EndsInComment text)
    (hrest : e :: rest <:+ text) (he : isLineEnd e = true) : EndsInComment (e :: rest) := by
  obtain ⟨comment, hcomment, hsuffix⟩ := h
  refine ⟨comment, hcomment, ?_⟩
  rcases List.suffix_or_suffix_of_suffix hsuffix hrest with hin | hin
  · exact hin
  · obtain ⟨body, rfl, hbody⟩ := hcomment
    rcases List.mem_cons.mp (hin.mem List.mem_cons_self) with rfl | hmem
    · cases he
    rcases List.mem_cons.mp hmem with rfl | hmem
    · cases he
    · exact absurd (isLineEnd_iff.mp he) (not_or.mpr (hbody e hmem))

/-- **Behind a text that ends inside a comment the rest of the line is lost.** -/
theorem scan_append_of_endsInComment (hd : isBlank d) (h : EndsInComment cs) (more : List Char) :
    scan (cs ++ d :: more) = scan cs ++ scan ((d :: more).dropWhile fun e => !isLineEnd e) := by
  induction cs using scan.induct with
  | case1 =>
    obtain ⟨comment, ⟨body, rfl, -⟩, hsuffix⟩ := h
    cases List.suffix_nil.mp hsuffix
  | case2 c cs hblank ih =>
    have hrest : EndsInComment cs := by
      obtain ⟨comment, hcomment, hsuffix⟩ := h
      rcases List.suffix_cons_iff.mp hsuffix with rfl | hsuffix
      · obtain ⟨rfl, -⟩ := head_of_isComment hcomment
        cases hblank
      · exact ⟨comment, hcomment, hsuffix⟩
    rw [List.cons_append, scan_blank hblank, scan_blank hblank, ih hrest]
  | case3 c cs hblank hcomment ih =>
    obtain ⟨rfl, hhead⟩ := hcomment
    obtain ⟨cs, rfl⟩ := List.head?_eq_some_iff.mp hhead
    rw [List.dropWhile_cons, if_pos (by decide)] at ih
    rw [List.cons_append, List.cons_append, scan_comment, scan_comment, List.dropWhile_append]
    cases hdrop : cs.dropWhile fun e => !isLineEnd e with
    | nil => rw [List.isEmpty_nil, if_pos rfl, scan_nil, List.nil_append]
    | cons e rest =>
      -- this comment is over, so the one the text ends in comes later
      have hline : isLineEnd e = true := by
        have hnot := List.head?_dropWhile_not (fun e => !isLineEnd e) cs
        rw [hdrop] at hnot
        simpa using hnot
      have hsuffix : e :: rest <:+ '/' :: '/' :: cs :=
        hdrop ▸ (List.dropWhile_suffix _).trans ⟨['/', '/'], rfl⟩
      rw [hdrop] at ih
      rw [List.isEmpty_cons, if_neg Bool.false_ne_true, ih (h.behind_lineEnd hsuffix hline)]
  | case4 c cs hblank hcomment ih =>
    have hblank' := Bool.eq_false_iff.mpr hblank
    rw [List.cons_append, scan_lexeme_append_blank hd hblank' hcomment,
      ih (h.behind_lexeme hcomment), scan_lexeme hblank' hcomment, List.cons_append]

/-! ## Two texts -/

/-- **Separators split the tokens.** A line feed or a carriage return between two texts leaves the
tokens of the one and then those of the other, whatever the texts are. So does any other blank, if
the first text does not end inside a comment. If it does, the comment takes with it what comes
before the next line end. -/
theorem ofSource_append_separator (a b : String) (c : Char) :
    (c = '\n' ∨ c = '\r' →
      ofSource (a ++ String.singleton c ++ b) = ofSource a ++ ofSource b) ∧
    (c = ' ' ∨ c = '\t' ∨ c = '\x0c' ∨ c = '\x0b' →
      (¬EndsInComment a.toList →
        ofSource (a ++ String.singleton c ++ b) = ofSource a ++ ofSource b) ∧
      (EndsInComment a.toList →
        ofSource (a ++ String.singleton c ++ b) =
          ofSource a ++ scan (b.toList.dropWhile fun d => !isLineEnd d))) := by
  have htext : ofSource (a ++ String.singleton c ++ b) = scan (a.toList ++ c :: b.toList) := by
    simp [ofSource]
  rw [htext]
  refine ⟨fun hc => scan_append_lineEnd (isLineEnd_iff.mpr hc) a.toList b.toList, fun hc => ?_⟩
  have hblank : isBlank c = true ∧ (!isLineEnd c) = true := by
    rcases hc with rfl | rfl | rfl | rfl <;> decide
  refine ⟨fun hopen => scan_append_blank hblank.1 a.toList b.toList (.inr hopen), fun hends => ?_⟩
  have hscan := scan_append_of_endsInComment hblank.1 hends b.toList
  rwa [List.dropWhile_cons, if_pos hblank.2] at hscan

/-- Halves of `==` and of `//` that a separator keeps apart, behind comments and outside of them. In
`a // b` the comment is not over, and takes `c` with it. -/
theorem ofSource_append_separator_halves :
    ofSource ("1 // =" ++ String.singleton '\r' ++ "= 2") = ofSource "1 // =" ++ ofSource "= 2" ∧
    (¬EndsInComment "// =\na =/".toList ∧
      ofSource ("// =\na =/" ++ String.singleton '\x0b' ++ "/= b") =
        ofSource "// =\na =/" ++ ofSource "/= b") ∧
    (EndsInComment "a // b".toList ∧
      ofSource ("a // b" ++ String.singleton ' ' ++ "c\n/ d") =
        ofSource "a // b" ++ scan ("c\n/ d".toList.dropWhile fun d => !isLineEnd d) ∧
      ofSource ("a // b" ++ String.singleton ' ' ++ "c\n/ d") =
        [⟨.ident, "a"⟩, ⟨.slash, "/"⟩, ⟨.ident, "d"⟩]) := by
  have hopen : ¬EndsInComment "// =\na =/".toList := by decide
  have hends : EndsInComment "a // b".toList := by decide
  exact ⟨(ofSource_append_separator "1 // =" "= 2" '\r').1 (by decide),
    ⟨hopen, ((ofSource_append_separator "// =\na =/" "/= b" '\x0b').2 (by decide)).1 hopen⟩,
    hends, ((ofSource_append_separator "a // b" "c\n/ d" ' ').2 (by decide)).2 hends,
    by decide +kernel⟩

end Treewalk.Token
