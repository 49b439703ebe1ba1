import Treewalk.Proofs.Scripts

/-!
# Line ends of either kind

A conversation goes the same way whether its lines end in a line feed or in a carriage return and a
line feed. One carriage return is taken off the end of a line, so a line that had some before loses
one less than it did, and is read with one more at its end. This makes no difference: with or
without it the line is text or is not (`decode?_append_return`), and if it is, it has the same
tokens. Of a line nothing but its tokens counts (`ofLines_congr`).
-/

namespace Treewalk.Conversation

/-- The input with a carriage return put in front of every line feed. -/
def withReturns (input : List UInt8) : List UInt8 :=
  input.flatMap fun b => if b = lineFeed then [carriageReturn, lineFeed] else [b]

/-! ## Lines -/

section Lines

variable {line : List UInt8}

theorem withReturns_of_notMem (h : lineFeed ∉ line) : withReturns line = line := by
  have hbytes : ∀ b ∈ line, (if b = lineFeed then [carriageReturn, lineFeed] else [b]) = [b] :=
    fun b hb => if_neg fun heq : b = lineFeed => h (heq ▸ hb)
  rw [withReturns, List.flatMap_congr hbytes, List.flatMap_singleton']

/-- Every line gets its carriage return. -/
theorem withReturns_line (h : lineFeed ∉ line) (rest : List UInt8) :
    withReturns (line ++ lineFeed :: rest) =
      line ++ [carriageReturn] ++ lineFeed :: withReturns rest := by
  have hline : withReturns (line ++ lineFeed :: rest) =
      withReturns line ++ carriageReturn :: lineFeed :: withReturns rest :=
    List.flatMap_append
  rw [hline, withReturns_of_notMem h, List.append_assoc, List.singleton_append]

theorem lineFeed_notMem_append_return (h : lineFeed ∉ line) :
    lineFeed ∉ line ++ [carriageReturn] := by
  rw [List.mem_append, List.mem_singleton]
  rintro (hmem | heq)
  · exact h hmem
  · exact absurd heq (by decide)

/-- The carriage return that was put at the end of a line is the one that is taken off. -/
theorem dropReturn_append_return (line : List UInt8) :
    dropReturn (line ++ [carriageReturn]) = line := by
  rw [dropReturn, if_pos List.getLast?_concat, List.dropLast_concat]

/-- What is taken off a line is a carriage return, or nothing. -/
theorem eq_dropReturn_or (line : List UInt8) :
    line = dropReturn line ∨ line = dropReturn line ++ [carriageReturn] := by
  unfold dropReturn
  split
  · rename_i hlast
    exact .inr (List.dropLast_append_getLast? _ hlast).symm
  · exact .inl rfl

end Lines

/-! ## The text of a line -/

/-- What is read as a text is the bytes of the text. -/
theorem eq_encode_of_decode? {line : List UInt8} {text : String} (h : decode? line = some text) :
    line = encode text := by
  unfold decode? String.fromUTF8? at h
  split at h
  · rw [← Option.some.inj h]
    show line = line.toByteArray.data.toList
    rw [List.data_toByteArray]
  · cases h

/-- **A carriage return behind a line is one behind its text**, and the line is text with it if it
is without it. -/
theorem decode?_append_return (line : List UInt8) :
    decode? (line ++ [carriageReturn]) = (decode? line).map (· ++ "\r") := by
  cases hline : decode? line with
  | some text =>
    have hbytes : line ++ [carriageReturn] = encode (text ++ "\r") := by
      rw [eq_encode_of_decode? hline, encode_append]
      rfl
    rw [hbytes, decode?_encode, Option.map_some]
  | none =>
    rw [Option.map_none, Option.eq_none_iff_forall_ne_some]
    intro text htext
    -- otherwise the line would be what is left of a text without its last character
    obtain ⟨shown, hshown, -⟩ := exists_dropReturn_encode text
    rw [← eq_encode_of_decode? htext, dropReturn_append_return] at hshown
    rw [hshown, decode?_encode] at hline
    cases hline

/-- The tokens of a line, if it is text. -/
def tokens? (line : List UInt8) : Option (List Token) := (decode? line).map Token.ofSource

theorem tokens?_append_return (line : List UInt8) :
    tokens? (line ++ [carriageReturn]) = tokens? line := by
  rw [tokens?, decode?_append_return, Option.map_map]
  exact Option.map_congr fun text _ => Token.ofSource_append_return text

theorem tokens?_dropReturn (line : List UInt8) : tokens? (dropReturn line) = tokens? line := by
  rcases eq_dropReturn_or line with heq | heq
  · rw [← heq]
  · nth_rewrite 2 [heq]
    rw [tokens?_append_return]

/-- **With or without the carriage returns the lines have the same tokens**, one by one. -/
theorem map_tokens?_withReturns (input : List UInt8) :
    (lines (withReturns input)).map tokens? = (lines input).map tokens? := by
  induction input using lines_induction with
  | nil => rfl
  | last line hne h => rw [withReturns_of_notMem h]
  | line line rest h ih =>
    rw [withReturns_line h, lines_line (lineFeed_notMem_append_return h), lines_line h,
      List.map_cons, List.map_cons, ih, dropReturn_append_return, tokens?_dropReturn]

/-! ## What is answered -/

/-- Of a text nothing but its tokens is answered. -/
theorem reply_congr {a b : String} (h : Token.ofSource a = Token.ofSource b) (env : Env) :
    reply a env = reply b env := by
  unfold reply
  rw [evaluate_congr h]

/-- **Lines with the same tokens make the same conversation.** -/
theorem ofLines_congr : ∀ {lines lines' : List (List UInt8)} (env : Env),
    lines.map tokens? = lines'.map tokens? → ofLines lines env = ofLines lines' env
  | [], [], _, _ => rfl
  | [], _ :: _, _, h => by cases h
  | _ :: _, [], _, h => by cases h
  | line :: rest, line' :: rest', env, h => by
    obtain ⟨hfirst, hrest⟩ := List.cons.inj h
    unfold tokens? at hfirst
    cases hline : decode? line with
    | none =>
      rw [hline, Option.map_none, eq_comm, Option.map_eq_none_iff] at hfirst
      rw [ofLines, hline, ofLines, hfirst]
    | some text =>
      rw [hline, Option.map_some, eq_comm, Option.map_eq_some_iff] at hfirst
      obtain ⟨text', hline', htokens⟩ := hfirst
      rw [ofLines_cons_text hline, ofLines_cons_text hline', reply_congr htokens,
        ofLines_congr _ hrest]

/-- The number of the line that is not text, at which a conversation stops. -/
def stop? (input : List UInt8) : Option Nat :=
  (lines input).findIdx? fun line => (decode? line).isNone

theorem stop?_eq (input : List UInt8) :
    stop? input = ((lines input).map tokens?).findIdx? Option.isNone := by
  have hnone : Option.isNone ∘ tokens? = fun line => (decode? line).isNone :=
    funext fun line => Option.isNone_map
  rw [List.findIdx?_map, hnone, stop?]

/-- It is broken off exactly if there is such a line. -/
theorem ending_ofInput_iff (input : List UInt8) :
    (ofInput input).ending = .notText ↔ (stop? input).isSome := by
  rw [stop?, List.findIdx?_isSome, List.any_eq_true]
  simp only [Option.isNone_iff_eq_none]
  exact ending_ofLines_iff (lines input) .empty

/-- **The kind of line end makes no difference.** A carriage return put in front of every line feed
of any input leaves the conversation as it was: all that is written, and how it ends. If it stops at
a line that is not text, it stops at the same line. -/
theorem ofInput_withReturns (input : List UInt8) :
    ofInput (withReturns input) = ofInput input ∧ stop? (withReturns input) = stop? input ∧
      ((ofInput input).ending = .notText ↔ (stop? input).isSome) := by
  have htokens := map_tokens?_withReturns input
  refine ⟨ofLines_congr .empty htokens, ?_, ending_ofInput_iff input⟩
  rw [stop?_eq, stop?_eq, htokens]

/-- A line with carriage returns of its own, a comment that ends in one, and a last line that does
not end. -/
example : ofInput (withReturns "1\r\r\n2 // 3\r\n\r\n4\r".toUTF8.toList) =
    ⟨">> 1\n>> 2\n>> >> 4\n>> ", .finished⟩ := by
  decide +kernel

end Treewalk.Conversation
