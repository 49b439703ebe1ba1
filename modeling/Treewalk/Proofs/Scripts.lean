import Treewalk.CommandLine.Run
import Treewalk.Proofs.Batch
import Treewalk.Proofs.Transcripts

/-!
# Scripts of one line

A text without a line feed is one line of a conversation, so there are two ways of running it. Both
write the same: what a script writes to either output stands between two prompts of the
conversation. Only the carriage return at the end of a line needs care. It is taken off before the
line is read in a conversation and stays in a script, where it separates tokens and leaves none.
-/

namespace Treewalk

/-! ## Text and bytes -/

namespace Conversation

/-- The bytes of a text. -/
def encode (text : String) : List UInt8 := text.toUTF8.data.toList

theorem encode_eq_flatMap (text : String) :
    encode text = text.toList.flatMap String.utf8EncodeChar := by
  have hbytes : text.toUTF8 = (text.toList.flatMap String.utf8EncodeChar).toByteArray :=
    String.utf8Encode_toList.symm
  rw [encode, hbytes, List.data_toByteArray]

theorem encode_append (a b : String) : encode (a ++ b) = encode a ++ encode b := by
  rw [encode_eq_flatMap, encode_eq_flatMap, encode_eq_flatMap, String.toList_append,
    List.flatMap_append]

/-- The bytes of a text are read as the text. -/
theorem decode?_encode (text : String) : decode? (encode text) = some text := by
  have hbytes : (encode text).toByteArray = text.toByteArray := by
    rw [encode_eq_flatMap]
    exact String.utf8Encode_toList
  rw [decode?, hbytes, String.fromUTF8?, dif_pos text.isValidUTF8]
  rfl

/-- A character with a byte below 128 has no other. -/
theorem utf8EncodeChar_of_mem {c : Char} {b : UInt8} (h : b ∈ String.utf8EncodeChar c)
    (hb : b.toNat < 128) : String.utf8EncodeChar c = [b] ∧ c.toNat = b.toNat := by
  have hwide : ∀ payload mark : Nat, 128 ≤ mark → payload + mark < 256 →
      b ≠ UInt8.ofNat (payload + mark) := by
    intro payload mark hmark hlt heq
    rw [heq, UInt8.toNat_ofNat'] at hb
    omega
  unfold String.utf8EncodeChar at h ⊢
  by_cases hone : c.val.toNat ≤ 0x7f
  · have hlt : c.val.toNat < 256 := by omega
    simp only [if_pos hone, List.mem_singleton] at h ⊢
    subst h
    exact ⟨rfl, (UInt8.toNat_ofNat_of_lt' hlt).symm⟩
  · -- every byte of a longer encoding has its highest bit set
    exfalso
    simp only [if_neg hone] at h
    split at h
    · simp only [List.mem_cons, List.not_mem_nil, or_false] at h
      rcases h with h | h <;> exact hwide _ _ (by omega) (by omega) h
    · split at h
      · simp only [List.mem_cons, List.not_mem_nil, or_false] at h
        rcases h with h | h | h <;> exact hwide _ _ (by omega) (by omega) h
      · simp only [List.mem_cons, List.not_mem_nil, or_false] at h
        rcases h with h | h | h | h <;> exact hwide _ _ (by omega) (by omega) h

/-- A line feed among the bytes is one of the text. -/
theorem lineFeed_notMem_encode {text : String} (h : '\n' ∉ text.toList) :
    lineFeed ∉ encode text := by
  rw [encode_eq_flatMap, List.mem_flatMap]
  rintro ⟨c, hc, hmem⟩
  obtain rfl : c = '\n' := Char.toNat_inj.mp (utf8EncodeChar_of_mem hmem (by decide)).2
  exact h hc

/-- The carriage return that is taken off the bytes is one of the text. -/
theorem exists_dropReturn_encode (text : String) :
    ∃ shown, dropReturn (encode text) = encode shown ∧ (text = shown ∨ text = shown ++ "\r") := by
  unfold dropReturn
  split
  · rename_i hlast
    rcases List.eq_nil_or_concat text.toList with hnil | ⟨cs, c, hconcat⟩
    · rw [encode_eq_flatMap, hnil] at hlast
      cases hlast
    · have hencode : encode text = encode (String.ofList cs) ++ String.utf8EncodeChar c := by
        rw [encode_eq_flatMap, encode_eq_flatMap, hconcat, String.toList_ofList,
          List.concat_eq_append, List.flatMap_append, List.flatMap_singleton]
      have hmem : carriageReturn ∈ String.utf8EncodeChar c := by
        have hne : String.utf8EncodeChar c ≠ [] := String.utf8EncodeChar_ne_nil
        rw [hencode, List.getLast?_append, List.getLast?_eq_some_getLast hne,
          Option.some_or] at hlast
        exact Option.some.inj hlast ▸ List.getLast_mem hne
      obtain ⟨hbytes, hc⟩ := utf8EncodeChar_of_mem hmem (by decide)
      obtain rfl : c = '\r' := Char.toNat_inj.mp hc
      refine ⟨String.ofList cs, ?_, .inr ?_⟩
      · rw [hencode, hbytes, List.dropLast_concat]
      · refine String.toList_injective ?_
        rw [hconcat, String.toList_append, String.toList_ofList, List.concat_eq_append]
        rfl
  · exact ⟨text, rfl, .inl rfl⟩

end Conversation

/-! ## Texts with the same tokens -/

/-- Of a text nothing but its tokens is evaluated. -/
theorem evaluate_congr {a b : String} (h : Token.ofSource a = Token.ofSource b) (env : Env) :
    evaluate a env = evaluate b env := by
  have hparser : Parser.ofSource a = Parser.ofSource b := congrArg Parser.ofTokens h
  unfold evaluate Program.ofSource
  rw [hparser]

/-- A carriage return at the end of a text leaves no token. -/
theorem Token.ofSource_append_return (source : String) :
    Token.ofSource (source ++ "\r") = Token.ofSource source := by
  unfold Token.ofSource
  rw [String.toList_append]
  exact (Token.scan_append_lineEnd rfl source.toList []).trans
    (by rw [Token.scan_nil, List.append_nil])

/-- So it has no effect. -/
theorem evaluate_append_return (source : String) (env : Env) :
    evaluate (source ++ "\r") env = evaluate source env :=
  evaluate_congr (Token.ofSource_append_return source) env

/-! ## One line -/

namespace Conversation

/-- A line is answered as the text it shows. -/
theorem reply_shown {text shown : String} (h : text = shown ∨ text = shown ++ "\r") (env : Env) :
    reply shown env = reply text env := by
  rcases h with rfl | rfl
  · rfl
  · unfold reply
    rw [evaluate_append_return]

/-- **A text without a line feed is one line of a conversation.** -/
theorem ofInput_line {text : String} (h : '\n' ∉ text.toList) :
    ofInput (encode (text ++ "\n")) =
      ⟨prompt ++ (reply text .empty).1 ++ prompt, .finished⟩ := by
  obtain ⟨shown, hdrop, hshown⟩ := exists_dropReturn_encode text
  have hinput : encode (text ++ "\n") = encode text ++ [lineFeed] := encode_append text "\n"
  rw [ofInput, hinput, lines_line (lineFeed_notMem_encode h), hdrop, lines_nil,
    ofLines_cons_text (decode?_encode shown), reply_shown hshown]
  rfl

end Conversation

namespace CommandLine

/-- **A script writes what a conversation answers**, to the standard output where it succeeds, and
to the standard error where it fails. It does not fail without a word. -/
theorem runSource_cases (source : String) :
    runSource source = .success (Conversation.reply source .empty).1 ∨
      (Conversation.reply source .empty).1 ≠ "" ∧
        runSource source = .failure "" (Conversation.reply source .empty).1 := by
  unfold runSource Conversation.reply
  cases evaluate source .empty with
  | error diagnostics =>
    refine .inr ⟨?_, rfl⟩
    show " parser errors:\n" ++ _ ≠ ""
    simp
  | ok outcome =>
    obtain ⟨value, env⟩ := outcome
    cases value with
    | none => exact .inl rfl
    | some value =>
      cases hvalue : value.isError with
      | false => exact .inl (by simp only [hvalue]; rfl)
      | true => exact .inr ⟨by simp, by simp only [hvalue, if_true]⟩

/-- The text to run as a script: the one that is given, or the one in the file. -/
def Options.IsScript (options : Options) (directory : Directory) (text : String) : Prop :=
  options.source = some text ∨ options.source = none ∧
    ∃ name, options.file = some name ∧ directory.read name = .ok (Conversation.encode text)

/-- **A script is run as its text**, with the log in front where there is one. -/
theorem run_of_isScript {arguments : List String} {surroundings : Surroundings} {options : Options}
    {text : String} (harguments : Invocation.ofArguments arguments = .ok (.run options))
    (hscript : options.IsScript surroundings.directory text) (subscriber : String → String) :
    run arguments surroundings subscriber =
        .ok ((runSource text).logged (surroundings.log subscriber)) ∧
      (surroundings.setting "RUST_LOG" = none →
        run arguments surroundings subscriber = .ok (runSource text)) := by
  have houtcome : (Invocation.run options).outcome surroundings = runSource text := by
    rw [Invocation.outcome]
    rcases hscript with hsource | ⟨hsource, name, hfile, hread⟩
    · rw [hsource]
    · simp only [hsource, hfile, hread, runFile, Except.bind, Conversation.decode?_encode,
        Option.elim_some]
  have hrun : run arguments surroundings subscriber =
      .ok ((runSource text).logged (surroundings.log subscriber)) := by
    rw [run, harguments, ← houtcome]
    rfl
  refine ⟨hrun, fun hunset => ?_⟩
  rw [hrun, surroundings.log_of_unset hunset, Outcome.logged_empty]

/-- Every text can be given as an argument. -/
theorem ofArguments_eval (text : String) :
    Invocation.ofArguments ["--eval=" ++ text] = .ok (.run ⟨some text, none, false⟩) := by
  have hlong : Argument.ofText ("--eval=" ++ text) = .long "eval" (some text) := by
    have hchars : ("--eval=" ++ text).toList =
        '-' :: '-' :: 'e' :: 'v' :: 'a' :: 'l' :: '=' :: text.toList := String.toList_append
    unfold Argument.ofText
    rw [hchars]
    show Argument.long "eval" (some (String.ofList text.toList)) = _
    rw [String.ofList_toList]
  rw [Invocation.ofArguments, settleAll, hlong]
  rfl

/-- **A script of one line and a conversation over it write the same.** However the text gets to the
program, as an argument or in a file, the program does what running the text does, with the log in
front where `RUST_LOG` is set and with nothing more where it is not. Running the text writes to one
output at the most, succeeds where that is not the standard error, and a conversation over the line
writes the same between its two prompts. -/
theorem script_agrees_with_conversation (s : String) (hline : '\n' ∉ s.toList) :
    (∀ (arguments : List String) (surroundings : Surroundings) (subscriber : String → String)
      (options : Options), Invocation.ofArguments arguments = .ok (.run options) →
      options.IsScript surroundings.directory s →
      run arguments surroundings subscriber =
          .ok ((runSource s).logged (surroundings.log subscriber)) ∧
        (surroundings.setting "RUST_LOG" = none →
          run arguments surroundings subscriber = .ok (runSource s))) ∧
    (∀ (surroundings : Surroundings) (subscriber : String → String),
      run ["--eval=" ++ s] surroundings subscriber =
          .ok ((runSource s).logged (surroundings.log subscriber)) ∧
        (surroundings.setting "RUST_LOG" = none →
          run ["--eval=" ++ s] surroundings subscriber = .ok (runSource s))) ∧
    ((runSource s).stdout = "" ∨ (runSource s).stderr = "") ∧
    ((runSource s).status = 0 ↔ (runSource s).stderr = "") ∧
    Conversation.ofInput (Conversation.encode (s ++ "\n")) =
      ⟨">> " ++ (runSource s).stdout ++ (runSource s).stderr ++ ">> ", .finished⟩ := by
  refine ⟨fun _ _ subscriber _ harguments hscript => run_of_isScript harguments hscript subscriber,
    fun _ subscriber => run_of_isScript (ofArguments_eval s) (.inl rfl) subscriber, ?_⟩
  rw [Conversation.ofInput_line hline]
  rcases runSource_cases s with hrun | ⟨hne, hrun⟩
  · rw [hrun]
    refine ⟨.inr rfl, iff_of_true rfl rfl, ?_⟩
    show _ = (⟨">> " ++ _ ++ "" ++ ">> ", _⟩ : Conversation.Transcript)
    rw [String.append_empty]
    rfl
  · rw [hrun]
    refine ⟨.inl rfl, iff_of_false Nat.one_ne_zero hne, ?_⟩
    show _ = (⟨">> " ++ "" ++ _ ++ ">> ", _⟩ : Conversation.Transcript)
    rw [String.append_empty]
    rfl

/-- A line whose error is raised by its operator, in a file that ends with a carriage return. -/
theorem script_agrees_with_conversation_return :
    run ["m"] ⟨⟨[("m", Conversation.encode "1 + true\r")]⟩, [], fun _ => none⟩ =
      .ok (runSource "1 + true\r") ∧
    Conversation.ofInput (Conversation.encode ("1 + true\r" ++ "\n")) =
      ⟨">> " ++ (runSource "1 + true\r").stdout ++ (runSource "1 + true\r").stderr ++ ">> ",
        .finished⟩ ∧
    runSource "1 + true\r" = ⟨1, "", "ERROR: type mismatch: INTEGER + BOOLEAN\n"⟩ := by
  have hagrees := script_agrees_with_conversation "1 + true\r" (by decide)
  have hsteps : Directory.steps "m" = ["m"] := by
    -- the loop that looks for separators takes two turns
    unfold Directory.steps String.splitOn
    rw [String.splitOnAux, String.splitOnAux]
    rfl
  have hread : ∀ bytes, (⟨[("m", bytes)]⟩ : Directory).read "m" = .ok bytes := by
    intro bytes
    have hpath : ¬Directory.maxPathBytes < "m".utf8ByteSize := by decide
    have hname : ¬Directory.maxNameBytes < "m".utf8ByteSize := by decide
    simp [Directory.read, Directory.follow, Directory.file?, Directory.isIdle, hsteps, hpath, hname]
  have hfile : Options.IsScript ⟨none, some "m", false⟩
      ⟨[("m", Conversation.encode "1 + true\r")]⟩ "1 + true\r" :=
    .inr ⟨rfl, "m", rfl, hread _⟩
  exact ⟨(hagrees.1 _ _ _ _ (by decide +kernel) hfile).2 rfl, hagrees.2.2.2.2, by decide +kernel⟩

end CommandLine

end Treewalk
