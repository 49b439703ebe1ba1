import Treewalk.Proofs.Grammar.FirstFault
import Treewalk.Proofs.Supplies

/-!
# Nothing behind the first end of input

A supply may answer with the end of input and still have tokens behind it. The parser gets to see
the first of them, since it holds the token behind the one it stands on, and after a diagnostic it
may step over the end of input and read on.

A clean reading does not, nor does it act on what it sees there. It is a derivation, in which there
is no end of input, so it comes to rest on the first one. And a derivation is read alike in front of
every end of input, whatever comes after that. `Parser.Reads` says both.
-/

namespace Treewalk

variable {tokens rest : List Token}

/-- What stands before the first end of input is found again in the whole. -/
theorem Token.takeWhile_append_end (heof : ∀ t ∈ tokens, t.kind ≠ .eof)
    (hrest : (next rest).kind = .eof) :
    (tokens ++ rest).takeWhile (fun t => t.kind ≠ .eof) = tokens := by
  have hnone : rest.takeWhile (fun t => t.kind ≠ .eof) = [] := by
    cases rest with
    | nil => rfl
    | cons t others => exact List.takeWhile_cons_of_neg (by simpa using hrest)
  rw [List.takeWhile_append_of_pos (by simpa using heof), hnone, List.append_nil]

/-- In front of an end of input, whatever comes after that, the tokens are read as the program,
without a diagnostic, and reading comes to rest on the end of input. -/
def Parser.Reads (tokens : List Token) (program : Program) : Prop :=
  ∀ rest, (Token.next rest).kind = .eof →
    (Parser.ofTokens (tokens ++ rest)).program =
      (program, ⟨.standard, rest, tokens.length + 2, []⟩)

/-- **What is read cleanly in front of one end of input is read so in front of all.** -/
theorem Parser.exists_reads (heof : ∀ t ∈ tokens, t.kind ≠ .eof)
    (hrest : (Token.next rest).kind = .eof)
    (h : (Parser.ofTokens (tokens ++ rest)).program.2.diagnostics = []) :
    ∃ program, Reads tokens program := by
  obtain ⟨passage, rest', hsep, hall, hrest'⟩ := Grammar.exists_of_readProgram (tokens ++ rest) h
  -- the derivation stops where the tokens do, since neither has an end of input in it
  obtain rfl : tokens = passage.tokens := by
    rw [← Token.takeWhile_append_end heof hrest, hall,
      Token.takeWhile_append_end passage.kind_ne_eof hrest']
  refine ⟨passage.program, fun behind hbehind => ?_⟩
  simp only [program, ofTokens, Grammar.Passage.readProgram_tokens hbehind passage hsep, settle,
    List.drop_left, List.append_nil, Nat.add_comm 2]
  rfl

theorem Parser.Reads.program_eq {program : Program} (h : Reads tokens program) :
    (Parser.ofTokens tokens).program.1 = program := by
  rw [← List.append_nil tokens, h [] rfl]

/-! ## Supplies -/

section Supply

variable {supply : Nat → Token} {k : Nat} (hend : (supply k).kind = .eof) {program : Program}
include hend

/-- A start of a supply that goes as far as an end of input. -/
theorem Token.exists_start_eq {n : Nat} (hn : k < n) :
    ∃ rest, start supply n = start supply k ++ rest ∧ (next rest).kind = .eof := by
  obtain ⟨j, rfl⟩ : ∃ j, n = k + (j + 1) := ⟨n - k - 1, by omega⟩
  refine ⟨_, start_add supply k (j + 1), ?_⟩
  rwa [next_start, later, Nat.zero_add]

theorem Parser.Reads.exists_obey_eq (hreads : Reads (Token.start supply k) program) {n : Nat}
    (hn : k < n) :
    ∃ rest, (Parser.mk .standard (Token.start supply n) 2 []).obey .program =
      (.program program, ⟨.standard, rest, k + 2, []⟩) := by
  obtain ⟨rest, hstart, hrest⟩ := Token.exists_start_eq hend hn
  have hprogram := hreads rest hrest
  rw [← hstart, Token.length_start] at hprogram
  exact ⟨rest, congrArg (fun result => (Reply.program result.1, result.2)) hprogram⟩

/-- Tokens in front of an end of input of a supply are read there as elsewhere. -/
theorem Host.ends_of_reads (hreads : Parser.Reads (Token.start supply k) program) :
    Ends (ofStream .none .standard supply 2 []) .program (.program program)
      (ofStream .none .standard (later k supply) (k + 2) []) := by
  obtain ⟨rest, hobey⟩ := hreads.exists_obey_eq hend (show k < k + 2 by omega)
  have hends := ends_of_obey (g := .none) .program (Nat.le_refl (k + 2))
    (by rw [hobey]; exact Nat.add_comm k 2)
  rwa [hobey] at hends

/-- **A clean reading of a supply is one of the tokens in front of the first end of input.** -/
theorem Host.Ends.reads {host' : Host .none}
    (h : Ends (ofStream .none .standard supply 2 []) .program (.program program) host')
    (hclean : host'.diagnostics = []) (heof : ∀ n < k, (supply n).kind ≠ .eof) :
    Parser.Reads (Token.start supply k) program ∧
      host' = ofStream .none .standard (later k supply) (k + 2) [] := by
  -- a start that goes as far as the host has looked, and as far as the end of input
  obtain ⟨moves, hmoves⟩ := Ends.exists_moves .program h
  obtain ⟨hreply, hpulled, rfl⟩ := hmoves (max moves k + 2) (by omega)
  have hn : k < max moves k + 2 := by omega
  obtain ⟨read, hreads⟩ : ∃ read, Parser.Reads (Token.start supply k) read := by
    obtain ⟨rest, hstart, hrest⟩ := Token.exists_start_eq hend hn
    refine Parser.exists_reads (fun t ht => ?_) hrest (by rw [← hstart]; exact hclean)
    obtain ⟨n, hmem, rfl⟩ := List.mem_map.mp ht
    exact heof n (List.mem_range.mp hmem)
  obtain ⟨rest, hobey⟩ := hreads.exists_obey_eq hend hn
  rw [hobey] at hreply hpulled ⊢
  obtain rfl : read = program := Parser.Reply.program.inj hreply
  obtain rfl : k = moves := Nat.add_right_cancel (hpulled.trans (Nat.add_comm 2 moves))
  exact ⟨hreads, rfl⟩

end Supply

/-- **A clean reading acts on nothing behind the first end of input.** Whatever a supply has there,
if its program is read without a diagnostic, then two tokens more are pulled than stand before the
first end of input, the program is the one of the tokens before it, and it is read from every other
supply that begins with these tokens and an end of input, without a diagnostic too. This goes for
supplies that run dry and for supplies that never do. -/
theorem clean_program_before_end :
    (∀ tokens rest : List Token, (∀ t ∈ tokens, t.kind ≠ .eof) → (Token.next rest).kind = .eof →
      let parser := Parser.ofTokens (tokens ++ rest)
      parser.program.2.diagnostics = [] →
        parser.program.2.pulled = tokens.length + 2 ∧
        parser.program.1 = (Parser.ofTokens tokens).program.1 ∧
        ∀ rest', (Token.next rest').kind = .eof →
          let other := Parser.ofTokens (tokens ++ rest')
          other.program.1 = parser.program.1 ∧ other.program.2.diagnostics = []) ∧
    ∀ (supply : Nat → Token) (k : Nat), (∀ n < k, (supply n).kind ≠ .eof) →
      (supply k).kind = .eof → ∀ (program : Program) (host' : Host .none),
      (Host.ofStream .none .standard supply 2 []).Ends .program (.program program) host' →
      host'.diagnostics = [] →
        host'.pulled = k + 2 ∧
        program = (Parser.ofTokens (Token.start supply k)).program.1 ∧
        ∀ supply' : Nat → Token, (∀ n < k, supply' n = supply n) → (supply' k).kind = .eof →
          let other := Host.ofStream .none .standard supply' 2 []
          ∃ other', other.Ends .program (.program program) other' ∧ other'.diagnostics = [] := by
  constructor
  · intro tokens rest heof hrest parser hclean
    obtain ⟨program, hreads⟩ := Parser.exists_reads heof hrest hclean
    simp only [parser, hreads rest hrest, hreads.program_eq, true_and]
    intro rest' hrest'
    rw [hreads rest' hrest']
    exact ⟨rfl, rfl⟩
  · intro supply k heof hend program host' h hclean
    obtain ⟨hreads, rfl⟩ := h.reads hend hclean heof
    refine ⟨rfl, hreads.program_eq.symm, fun supply' hsame hend' => ?_⟩
    have hreads' : Parser.Reads (Token.start supply' k) program := by
      rwa [Token.start_congr hsame]
    exact ⟨_, Host.ends_of_reads hend' hreads', rfl⟩

/-- Behind `a + b` and the end of input there are closing parentheses: two of them, or no end of
them. The sum is read in both cases, and in front of names without end as well. -/
theorem clean_program_before_end_of_sum :
    let sum : Program := ⟨[.expression ⟨.ident, "a"⟩ (.binary ⟨.plus, "+"⟩
      (.reference ⟨⟨.ident, "a"⟩, "a"⟩) .add (.reference ⟨⟨.ident, "b"⟩, "b"⟩))]⟩
    let tokens : List Token := [⟨.ident, "a"⟩, ⟨.plus, "+"⟩, ⟨.ident, "b"⟩]
    let parser := Parser.ofTokens (tokens ++ [.eof, ⟨.rparen, ")"⟩, ⟨.rparen, ")"⟩])
    let before (t : Token) : Host .none :=
      .ofStream .none .standard (fun n => (tokens ++ [Token.eof]).getD n t) 2 []
    (parser.program.1 = sum ∧ parser.program.2.diagnostics = [] ∧
      parser.program.2.pulled = 5 ∧ (Parser.ofTokens tokens).program.1 = sum ∧
      (Parser.ofTokens (tokens ++ [Token.eof, ⟨.ident, "c"⟩])).program.1 = sum) ∧
    (before ⟨.rparen, ")"⟩).Ends .program (.program sum)
      (.ofStream .none .standard (fun n => [Token.eof].getD n ⟨.rparen, ")"⟩) 5 []) ∧
    ∃ other', (before ⟨.ident, "c"⟩).Ends .program (.program sum) other' ∧
      other'.diagnostics = [] := by
  intro sum tokens parser before
  have hsum : parser.program.1 = sum := by decide +kernel
  have hclean : parser.program.2.diagnostics = [] := by decide +kernel
  have hends : (before ⟨.rparen, ")"⟩).Ends .program (.program sum)
      (.ofStream .none .standard (fun n => [Token.eof].getD n ⟨.rparen, ")"⟩) 5 []) := ⟨8, rfl⟩
  obtain ⟨hpulled, halone, hothers⟩ := clean_program_before_end.1 tokens _ (by decide) rfl hclean
  obtain ⟨-, -, hothers'⟩ :=
    clean_program_before_end.2 _ 3 (by decide) rfl sum _ hends rfl
  exact ⟨⟨hsum, hclean, hpulled, halone.symm.trans hsum, (hothers _ rfl).1.trans hsum⟩, hends,
    hothers' _ (by decide) rfl⟩

/-! With a diagnostic, what stands behind the end of input may get into the program: there is no
operand behind `-`, and then `a` is read as a statement. -/

example : (Parser.ofTokens [⟨.minus, "-"⟩, .eof, ⟨.ident, "a"⟩]).program.1 =
    ⟨[.expression ⟨.ident, "a"⟩ (.reference ⟨⟨.ident, "a"⟩, "a"⟩)]⟩ := by
  decide +kernel

end Treewalk
