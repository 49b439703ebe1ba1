import Treewalk.Session
import Treewalk.Proofs.Separators
import Treewalk.Proofs.Recovery

/-!
# Evaluating two texts at once

Two texts are joined by a line end, the first of which is complete. Nothing crosses the joint: lines
are scanned one by one, what is read in front of a semicolon does not touch what is read behind it,
and statements share nothing but the environment. So the joined text is evaluated as the two texts
are one after the other, unless the first one stops at a carrier, in which case the second one is
not evaluated.
-/

namespace Treewalk

/-! ## Statements one after the other -/

namespace Stmt

/-- A run that no carrier stops goes on with the statements behind it. -/
theorem evalAll_append_of_plain (second : List Stmt) : ∀ (first : List Stmt) (last : Option Value)
    (env : Env), (∀ outcome ∈ (evalEach first env).1, outcome.any Value.isCarrier = false) →
      evalAll last (first ++ second) env =
        evalAll (evalAll last first env).1 second (evalAll last first env).2
  | [], _, _, _ => rfl
  | statement :: first, last, env, h => by
    have hplain := h (statement.eval env).1 List.mem_cons_self
    have hgo : ¬(statement.eval env).1.any Value.isCarrier := Bool.eq_false_iff.mp hplain
    rw [List.cons_append, evalAll_cons, evalAll_cons, if_neg hgo, if_neg hgo]
    exact evalAll_append_of_plain second first _ _ fun outcome houtcome =>
      h outcome (List.mem_cons_of_mem _ houtcome)

/-- A run that a carrier stops does not get to the statements behind it. -/
theorem evalAll_append_of_carrier (second : List Stmt) : ∀ (first : List Stmt)
    (last : Option Value) (env : Env),
    (∃ outcome ∈ (evalEach first env).1, outcome.any Value.isCarrier = true) →
      evalAll last (first ++ second) env = evalAll last first env
  | [], _, _, h => by
    obtain ⟨_, hmem, -⟩ := h
    cases hmem
  | statement :: first, last, env, h => by
    rw [List.cons_append, evalAll_cons, evalAll_cons]
    by_cases hstop : (statement.eval env).1.any Value.isCarrier
    · rw [if_pos hstop, if_pos hstop]
    · rw [if_neg hstop, if_neg hstop]
      refine evalAll_append_of_carrier second first _ _ ?_
      obtain ⟨outcome, hmem, hcarrier⟩ := h
      rcases List.mem_cons.mp hmem with rfl | hmem
      · exact absurd hcarrier hstop
      · exact ⟨outcome, hmem, hcarrier⟩

/-- The value before a run is forgotten by its first statement. -/
theorem evalAll_of_ne_nil {statements : List Stmt} (h : statements ≠ []) (last last' : Option Value)
    (env : Env) : evalAll last statements env = evalAll last' statements env := by
  cases statements with
  | nil => exact absurd rfl h
  | cons statement rest => rfl

end Stmt

/-! ## Texts one after the other -/

/-- A program that is accepted does not begin with a semicolon. -/
theorem Grammar.ne_semicolon_of_clean {tokens : List Token}
    (h : (Rules.standard.readProgram tokens).diagnostics = []) :
    ∀ t ∈ tokens.head?, t.kind ≠ .semicolon := by
  intro t ht hkind
  obtain ⟨rest, rfl⟩ := List.head?_eq_some_iff.mp ht
  have hstmt : Rules.standard.readStmt t rest = .fail (.noOpening t.kind) := by
    refine Rules.readStmt_of_unopened ?_ ?_ ?_ rest <;> rw [hkind]
    exacts [rfl, nofun, nofun]
  have heof : t.kind ≠ .eof := by rw [hkind]; decide
  rw [Rules.readProgram, if_neg heof, hstmt] at h
  cases h

/-- Texts on either side of a line end are cut into tokens on their own. -/
theorem Token.ofSource_append_line (a b : String) :
    ofSource (a ++ "\n" ++ b) = ofSource a ++ ofSource b := by
  unfold ofSource
  rw [String.toList_append, String.toList_append, List.append_assoc]
  exact scan_append_lineEnd rfl a.toList b.toList

namespace Program

/-- The tokens of a text are read as a program, and the text is rejected for any diagnostic. -/
theorem ofSource_eq (source : String) :
    ofSource source =
      if (Rules.standard.readProgram (Token.ofSource source)).diagnostics = [] then
        .ok ⟨(Rules.standard.readProgram (Token.ofSource source)).value⟩
      else .error (Rules.standard.readProgram (Token.ofSource source)).diagnostics := rfl

/-- A text is accepted where its tokens are read without a diagnostic. -/
theorem ofSource_eq_ok_iff {source : String} {program : Program} :
    ofSource source = .ok program ↔
      (Rules.standard.readProgram (Token.ofSource source)).diagnostics = [] ∧
        (Rules.standard.readProgram (Token.ofSource source)).value = program.statements := by
  rw [ofSource_eq]
  constructor
  · intro h
    split at h
    · rename_i hclean
      cases h
      exact ⟨hclean, rfl⟩
    · cases h
  · rintro ⟨hclean, hvalue⟩
    rw [if_pos hclean, hvalue]

/-- **Two accepted texts are accepted together**, as the statements of both. -/
theorem ofSource_append_line {a b : String} {p q : Program} (ha : ofSource a = .ok p)
    (hb : ofSource b = .ok q) (hends : ∀ t ∈ (Token.ofSource a).getLast?, t.kind = .semicolon) :
    ofSource (a ++ "\n" ++ b) = .ok ⟨p.statements ++ q.statements⟩ := by
  obtain ⟨hcleana, hp⟩ := ofSource_eq_ok_iff.mp ha
  obtain ⟨hcleanb, hq⟩ := ofSource_eq_ok_iff.mp hb
  have hclosed : (Rules.standard.readProgram (Token.ofSource a)).Closed := by
    rw [Reading.Closed, hcleana]
    exact List.not_mem_nil
  have heof : ∀ t ∈ Token.ofSource a, t.kind ≠ .eof := Token.kind_ne_eof_of_mem_scan a.toList
  rw [ofSource_eq_ok_iff, Token.ofSource_append_line,
    Grammar.readProgram_append heof hends hclosed (Grammar.ne_semicolon_of_clean hcleanb)]
  refine ⟨?_, ?_⟩
  · show _ ++ _ = []
    rw [hcleana, hcleanb, List.append_nil]
  · show _ ++ _ = p.statements ++ q.statements
    rw [hp, hq]

end Program

theorem evaluate_of_ofSource {source : String} {program : Program}
    (h : Program.ofSource source = .ok program) (env : Env) :
    evaluate source env = .ok (program.eval env) := by
  rw [evaluate, h]
  rfl

/-- **Batch and incremental evaluation agree.** A text that ends with a semicolon, a line end and
another text are evaluated as the two texts one after the other, where no statement of the first one
yields a carrier. Where one does, the first text alone is evaluated. -/
theorem evaluate_append_line (env : Env) {a b : String} {p q : Program}
    (ha : Program.ofSource a = .ok p) (hb : Program.ofSource b = .ok q)
    (hends : ∀ t ∈ (Token.ofSource a).getLast?, t.kind = .semicolon) (hq : q.statements ≠ []) :
    ((∀ outcome ∈ (Stmt.evalEach p.statements env).1, outcome.any Value.isCarrier = false) →
        ∃ value env', evaluate a env = .ok (value, env') ∧
          evaluate (a ++ "\n" ++ b) env = evaluate b env') ∧
      ((∃ outcome ∈ (Stmt.evalEach p.statements env).1, outcome.any Value.isCarrier = true) →
        evaluate (a ++ "\n" ++ b) env = evaluate a env) := by
  have hboth := Program.ofSource_append_line ha hb hends
  rw [evaluate_of_ofSource hboth env, evaluate_of_ofSource ha env]
  constructor
  · intro hplain
    refine ⟨_, _, rfl, ?_⟩
    rw [evaluate_of_ofSource hb]
    simp only [Program.eval]
    rw [Stmt.evalAll_append_of_plain q.statements p.statements none env hplain,
      Stmt.evalAll_of_ne_nil hq _ none]
  · intro hcarrier
    simp only [Program.eval]
    rw [Stmt.evalAll_append_of_carrier q.statements p.statements none env hcarrier]

/-- The first text may end in a comment, and it may be one that stops before its end. -/
theorem evaluate_append_line_comment_or_result :
    (∃ value env', evaluate "let x = true; // on" .empty = .ok (value, env') ∧
      evaluate ("let x = true; // on" ++ "\n" ++ "!x") .empty = evaluate "!x" env') ∧
    evaluate ("return true; y;" ++ "\n" ++ "!x") .empty = evaluate "return true; y;" .empty := by
  have hbinding : Program.ofSource "let x = true; // on" =
      .ok ⟨[.binding ⟨.kwLet, "let"⟩ ⟨⟨.ident, "x"⟩, "x"⟩
        (some (.boolean ⟨.kwTrue, "true"⟩ true))]⟩ := by
    decide +kernel
  have hresult : Program.ofSource "return true; y;" =
      .ok ⟨[.result ⟨.kwReturn, "return"⟩ (some (.boolean ⟨.kwTrue, "true"⟩ true)),
        .expression ⟨.ident, "y"⟩ (.reference ⟨⟨.ident, "y"⟩, "y"⟩)]⟩ := by
    decide +kernel
  have hnot : Program.ofSource "!x" =
      .ok ⟨[.expression ⟨.bang, "!"⟩ (.unary ⟨.bang, "!"⟩ .not
        (.reference ⟨⟨.ident, "x"⟩, "x"⟩))]⟩ := by
    decide +kernel
  have hgoes := evaluate_append_line .empty hbinding hnot (by decide +kernel) nofun
  have hstops := evaluate_append_line .empty hresult hnot (by decide +kernel) nofun
  exact ⟨hgoes.1 (by decide +kernel), hstops.2 (by decide +kernel)⟩

end Treewalk
