import Mathlib.Data.List.Nodup
import Treewalk.Conversation
import Treewalk.Proofs.Quotation

/-!
# What is printed determines the outcome

A line is answered by nothing, by a value, or by a report of diagnostics. No two outcomes are
answered alike, apart from a returned value, which reads as the value inside.

Texts are told apart by their parts. A part that is one of a few words is found by the space behind
it, a fault's label by its colon, and a diagnostic by the line end; none of these separators stands
in the part itself, which is why the numeral that a diagnostic quotes must be digits. A name or an
expression that a fault quotes may be any text at all, since it comes last.
-/

namespace Treewalk

/-! ## Separators -/

/-- Where a separator stands in neither of two parts, both end at it. -/
theorem append_separator_inj {c : Char} {x y : List Char} : ∀ {u v : List Char}, c ∉ u → c ∉ v →
    u ++ c :: x = v ++ c :: y → u = v ∧ x = y
  | [], [], _, _, h => ⟨rfl, (List.cons.inj h).2⟩
  | [], d :: v, _, hv, h => absurd ((List.cons.inj h).1 ▸ List.mem_cons_self) hv
  | d :: u, [], hu, _, h => absurd ((List.cons.inj h).1 ▸ List.mem_cons_self) hu
  | d :: u, e :: v, hu, hv, h => by
    obtain ⟨hhead, htail⟩ := List.cons.inj h
    obtain ⟨hu', hx⟩ := append_separator_inj (fun hc => hu (List.mem_cons_of_mem d hc))
      (fun hc => hv (List.mem_cons_of_mem e hc)) htail
    exact ⟨by rw [hhead, hu'], hx⟩

/-! ## Words -/

namespace Token.Kind

/-- All kinds. -/
def all : List Kind :=
  [.eof, .illegal, .ident, .int, .assign, .plus, .minus, .bang, .asterisk, .slash, .lt, .gt, .eq,
    .notEq, .comma, .semicolon, .lparen, .rparen, .lbrace, .rbrace, .kwFn, .kwLet, .kwTrue,
    .kwFalse, .kwIf, .kwElse, .kwReturn, .comment]

theorem mem_all (kind : Kind) : kind ∈ all := by
  cases kind <;> decide

/-- **No two kinds have the same name.** -/
theorem name_injective : Function.Injective name := by
  intro a b h
  have hnodup : (all.map name).Nodup := by decide
  exact List.inj_on_of_nodup_map hnodup (mem_all a) (mem_all b) h

theorem space_notMem_name (kind : Kind) : ' ' ∉ kind.name.toList := by
  cases kind <;> decide

theorem lineFeed_notMem_name (kind : Kind) : '\n' ∉ kind.name.toList := by
  cases kind <;> decide

end Token.Kind

namespace Category

theorem name_injective : Function.Injective name := by
  intro a b
  cases a <;> cases b <;> decide

theorem space_notMem_name (category : Category) : ' ' ∉ category.name.toList := by
  cases category <;> decide

end Category

theorem UnaryOp.symbol_injective : Function.Injective UnaryOp.symbol := by
  intro a b
  cases a <;> cases b <;> decide

namespace BinaryOp

theorem symbol_injective : Function.Injective symbol := by
  intro a b
  cases a <;> cases b <;> decide

theorem space_notMem_symbol (op : BinaryOp) : ' ' ∉ op.symbol.toList := by
  cases op <;> decide

end BinaryOp

/-! ## Diagnostics -/

namespace Diagnostic

/-- A numeral that is quoted consists of digits. -/
def QuotesDigits : Diagnostic → Prop
  | .invalidInteger literal => ∀ c ∈ literal.toList, c.isDigit
  | .unexpected _ _ | .noOpening _ => True

/-- The letter a diagnostic begins with. -/
def initial : Diagnostic → Char
  | .unexpected _ _ => 'e'
  | .noOpening _ => 'n'
  | .invalidInteger _ => 'c'

section

variable (expected found kind : Token.Kind) (literal : String)

theorem message_unexpected : (unexpected expected found).message =
    "expected next token to be " ++ expected.name ++ ", got " ++ found.name ++ " instead" := rfl

theorem message_noOpening :
    (noOpening kind).message = "no prefix parse function for " ++ kind.name ++ " found" := rfl

theorem message_invalidInteger :
    (invalidInteger literal).message = "could not parse \"" ++ literal ++ "\" as integer" := rfl

end

theorem head?_message (d : Diagnostic) : d.message.toList.head? = some d.initial := by
  cases d with
  | unexpected expected found =>
    simp only [message_unexpected, String.toList_append, List.append_assoc]
    rfl
  | noOpening kind =>
    simp only [message_noOpening, String.toList_append, List.append_assoc]
    rfl
  | invalidInteger literal =>
    simp only [message_invalidInteger, String.toList_append, List.append_assoc]
    rfl

/-- What was expected is found by the space behind the comma. A comma may have been expected too,
but nothing that has a space in its name. -/
theorem unexpected_inj_of_message {expected found expected' found' : Token.Kind}
    (h : (unexpected expected found).message = (unexpected expected' found').message) :
    expected = expected' ∧ found = found' := by
  have hgot : ", got ".toList = ',' :: ' ' :: "got ".toList := rfl
  have hsplit : ∀ expected found : Token.Kind, (unexpected expected found).message.toList =
      "expected next token to be ".toList ++ ((expected.name.toList ++ [',']) ++
        ' ' :: ("got ".toList ++ (found.name.toList ++ " instead".toList))) := by
    intro expected found
    simp only [message_unexpected, String.toList_append, hgot, List.append_assoc, List.cons_append,
      List.nil_append]
  have hspace : ∀ kind : Token.Kind, ' ' ∉ kind.name.toList ++ [','] := by
    intro kind hmem
    rcases List.mem_append.mp hmem with hmem | hmem
    · exact kind.space_notMem_name hmem
    · exact absurd (List.mem_singleton.mp hmem) (by decide)
  have hlist := congrArg String.toList h
  rw [hsplit, hsplit] at hlist
  obtain ⟨hexpected, hrest⟩ := append_separator_inj (hspace expected) (hspace expected')
    (List.append_cancel_left hlist)
  have hfound := List.append_cancel_right (List.append_cancel_left hrest)
  exact ⟨Token.Kind.name_injective (String.toList_inj.mp (List.append_cancel_right hexpected)),
    Token.Kind.name_injective (String.toList_inj.mp hfound)⟩

/-- **Diagnostics are told apart by their wording.** -/
theorem message_injective : Function.Injective message := by
  intro a b h
  have hinitial : a.initial = b.initial := by
    have hhead := a.head?_message
    rw [h, b.head?_message] at hhead
    exact (Option.some.inj hhead).symm
  -- the initials differ wherever the causes do, and within one cause the fixed words cancel
  cases a with
  | unexpected expected found =>
    cases b with
    | unexpected expected' found' =>
      obtain ⟨rfl, rfl⟩ := unexpected_inj_of_message h
      rfl
    | noOpening _ | invalidInteger _ => simp [initial] at hinitial
  | noOpening kind =>
    cases b with
    | noOpening kind' =>
      rw [message_noOpening, message_noOpening, String.append_left_inj,
        String.append_right_inj] at h
      rw [Token.Kind.name_injective h]
    | unexpected _ _ | invalidInteger _ => simp [initial] at hinitial
  | invalidInteger literal =>
    cases b with
    | invalidInteger literal' =>
      rw [message_invalidInteger, message_invalidInteger, String.append_left_inj,
        String.append_right_inj] at h
      rw [h]
    | unexpected _ _ | noOpening _ => simp [initial] at hinitial

theorem lineFeed_notMem_message {d : Diagnostic} (h : d.QuotesDigits) :
    '\n' ∉ d.message.toList := by
  cases d with
  | unexpected expected found =>
    simp only [message_unexpected, String.toList_append, List.mem_append, not_or]
    exact ⟨⟨⟨⟨by decide, expected.lineFeed_notMem_name⟩, by decide⟩, found.lineFeed_notMem_name⟩,
      by decide⟩
  | noOpening kind =>
    simp only [message_noOpening, String.toList_append, List.mem_append, not_or]
    exact ⟨⟨by decide, kind.lineFeed_notMem_name⟩, by decide⟩
  | invalidInteger literal =>
    simp only [message_invalidInteger, String.toList_append, List.mem_append, not_or]
    exact ⟨⟨by decide, fun hmem => absurd (h _ hmem) (by decide)⟩, by decide⟩

/-- A report is a heading and a line for each diagnostic. -/
theorem toList_report (diagnostics : List Diagnostic) :
    (report diagnostics).toList = " parser errors:\n".toList ++
      diagnostics.flatMap fun d => '\t' :: (d.message.toList ++ ['\n']) := by
  have hlines : (String.join (diagnostics.map fun d => "\t" ++ d.message ++ "\n")).toList =
      diagnostics.flatMap fun d => '\t' :: (d.message.toList ++ ['\n']) := by
    rw [String.toList_join, List.flatMap_map]
    simp only [String.toList_append]
    rfl
  exact String.toList_append.trans (congrArg _ hlines)

/-- **Reports of the same lines are of the same diagnostics.** -/
theorem eq_of_flatMap_eq : ∀ {a b : List Diagnostic}, (∀ d ∈ a, d.QuotesDigits) →
    (∀ d ∈ b, d.QuotesDigits) →
    (a.flatMap fun d => '\t' :: (d.message.toList ++ ['\n'])) =
      (b.flatMap fun d => '\t' :: (d.message.toList ++ ['\n'])) → a = b
  | [], [], _, _, _ => rfl
  | [], _ :: _, _, _, h => nomatch h
  | _ :: _, [], _, _, h => nomatch h
  | d :: a, e :: b, ha, hb, h => by
    obtain ⟨hd, ha⟩ := List.forall_mem_cons.mp ha
    obtain ⟨he, hb⟩ := List.forall_mem_cons.mp hb
    simp only [List.flatMap_cons, List.cons_append, List.append_assoc, List.nil_append,
      List.cons.injEq, true_and] at h
    obtain ⟨hmessage, hrest⟩ := append_separator_inj (lineFeed_notMem_message hd)
      (lineFeed_notMem_message he) h
    rw [message_injective (String.toList_inj.mp hmessage), eq_of_flatMap_eq ha hb hrest]

end Diagnostic

/-! ## Integers -/

namespace Integer

/-- **The text of an integer is read as it.** -/
theorem ofText?_text (a : Integer) : ofText? a.text = some a := by
  unfold text
  split
  · rename_i hneg
    have hval : -(a.val.natAbs : Int) = a.val := by omega
    rw [ofText?, String.toList_ofList, ofChars?, ofDigits?_digits, Option.bind_some, hval,
      ofInt?_val]
  · rename_i hneg
    have hval : (a.val.natAbs : Int) = a.val := by omega
    rw [ofText?_digits, hval, ofInt?_val]

theorem text_injective : Function.Injective text := by
  intro a b h
  have hread := ofText?_text a
  rw [h, ofText?_text] at hread
  exact (Option.some.inj hread).symm

end Integer

/-! ## Faults -/

namespace Fault

/-- What kind of fault it is, in words. -/
def label : Fault → String
  | .unknownUnary _ _ | .unknownBinary _ _ _ => "unknown operator"
  | .mismatch _ _ _ => "type mismatch"
  | .unbound _ => "identifier not found"
  | .divisionByZero _ => "division by zero"
  | .overflow _ => "integer overflow"

/-- An operator between two categories. -/
def operation (left : Category) (op : BinaryOp) (right : Category) : String :=
  left.name ++ " " ++ op.symbol ++ " " ++ right.name

/-- What a fault says about itself. -/
def detail : Fault → String
  | .unknownUnary op operand => op.symbol ++ operand.name
  | .unknownBinary left op right | .mismatch left op right => operation left op right
  | .unbound name => name
  | .divisionByZero dividend => dividend.text ++ " / 0"
  | .overflow expression => expression

/-- A fault is worded as its label and its detail, with a colon between them. -/
theorem message_eq (f : Fault) : f.message = f.label ++ ": " ++ f.detail := by
  have hunknown : "unknown operator" ++ ": " = "unknown operator: " := rfl
  have hmismatch : "type mismatch" ++ ": " = "type mismatch: " := rfl
  have hdivision : "division by zero" ++ ": " = "division by zero: " := rfl
  cases f with
  | unknownUnary op operand =>
    simp only [label, hunknown, detail, ← String.append_assoc]
    rfl
  | unknownBinary left op right =>
    simp only [label, hunknown, detail, operation, ← String.append_assoc]
    rfl
  | mismatch left op right =>
    simp only [label, hmismatch, detail, operation, ← String.append_assoc]
    rfl
  | divisionByZero dividend =>
    simp only [label, hdivision, detail, ← String.append_assoc]
    rfl
  | unbound _ | overflow _ => rfl

theorem colon_notMem_label (f : Fault) : ':' ∉ f.label.toList := by
  cases f <;> (rw [label]; decide)

theorem label_detail_of_message {a b : Fault} (h : a.message = b.message) :
    a.label = b.label ∧ a.detail = b.detail := by
  have hsplit : ∀ f : Fault,
      f.message.toList = f.label.toList ++ ':' :: (' ' :: f.detail.toList) := by
    intro f
    have hcolon : ": ".toList = [':', ' '] := rfl
    simp only [message_eq, String.toList_append, hcolon, List.append_assoc, List.cons_append,
      List.nil_append]
  have hlist := congrArg String.toList h
  rw [hsplit, hsplit] at hlist
  obtain ⟨hlabel, hrest⟩ :=
    append_separator_inj a.colon_notMem_label b.colon_notMem_label hlist
  exact ⟨String.toList_inj.mp hlabel, String.toList_inj.mp (List.cons.inj hrest).2⟩

theorem toList_operation (left : Category) (op : BinaryOp) (right : Category) :
    (operation left op right).toList =
      left.name.toList ++ ' ' :: (op.symbol.toList ++ ' ' :: right.name.toList) := by
  have hspace : " ".toList = [' '] := rfl
  simp only [operation, String.toList_append, hspace, List.append_assoc, List.cons_append,
    List.nil_append]

/-- The three words of an operation are found by the spaces between them. -/
theorem operation_inj {left right left' right' : Category} {op op' : BinaryOp}
    (h : operation left op right = operation left' op' right') :
    left = left' ∧ op = op' ∧ right = right' := by
  have hlist := congrArg String.toList h
  rw [toList_operation, toList_operation] at hlist
  obtain ⟨hleft, hrest⟩ :=
    append_separator_inj left.space_notMem_name left'.space_notMem_name hlist
  obtain ⟨hop, hright⟩ := append_separator_inj op.space_notMem_symbol op'.space_notMem_symbol hrest
  exact ⟨Category.name_injective (String.toList_inj.mp hleft),
    BinaryOp.symbol_injective (String.toList_inj.mp hop),
    Category.name_injective (String.toList_inj.mp hright)⟩

/-- The operator in front of a category is one character. -/
theorem unary_inj {op op' : UnaryOp} {operand operand' : Category}
    (h : op.symbol ++ operand.name = op'.symbol ++ operand'.name) :
    op = op' ∧ operand = operand' := by
  have hlist := congrArg String.toList h
  rw [String.toList_append, String.toList_append] at hlist
  have hlength : ∀ op : UnaryOp, op.symbol.toList.length = 1 := by
    intro op
    cases op <;> decide
  obtain ⟨hop, hoperand⟩ := List.append_inj hlist ((hlength op).trans (hlength op').symm)
  exact ⟨UnaryOp.symbol_injective (String.toList_inj.mp hop),
    Category.name_injective (String.toList_inj.mp hoperand)⟩

/-- It has no space behind it, so one operand is not taken for two. -/
theorem unary_ne_operation (op : UnaryOp) (operand left right : Category) (op' : BinaryOp) :
    op.symbol ++ operand.name ≠ operation left op' right := by
  intro h
  have hspace : ' ' ∈ (op.symbol ++ operand.name).toList := by
    rw [h, toList_operation]
    exact List.mem_append_right _ List.mem_cons_self
  have hsymbol : ' ' ∉ op.symbol.toList := by
    cases op <;> decide
  rw [String.toList_append, List.mem_append] at hspace
  exact hspace.elim hsymbol operand.space_notMem_name

/-- **Faults are told apart by their wording.** -/
theorem message_injective : Function.Injective message := by
  intro a b h
  obtain ⟨hlabel, hdetail⟩ := label_detail_of_message h
  -- the label settles the cause, except for the two sorts of unknown operator
  cases a with
  | unknownUnary op operand =>
    cases b with
    | unknownUnary op' operand' =>
      obtain ⟨rfl, rfl⟩ := unary_inj hdetail
      rfl
    | unknownBinary left op' right =>
      exact absurd hdetail (unary_ne_operation op operand left right op')
    | _ => simp [label] at hlabel
  | unknownBinary left op right =>
    cases b with
    | unknownUnary op' operand =>
      exact absurd hdetail.symm (unary_ne_operation op' operand left right op)
    | unknownBinary left' op' right' =>
      obtain ⟨rfl, rfl, rfl⟩ := operation_inj hdetail
      rfl
    | _ => simp [label] at hlabel
  | mismatch left op right =>
    cases b with
    | mismatch left' op' right' =>
      obtain ⟨rfl, rfl, rfl⟩ := operation_inj hdetail
      rfl
    | _ => simp [label] at hlabel
  | unbound name =>
    cases b with
    | unbound name' => exact congrArg unbound hdetail
    | _ => simp [label] at hlabel
  | divisionByZero dividend =>
    cases b with
    | divisionByZero dividend' =>
      rw [Integer.text_injective ((String.append_left_inj _).mp hdetail)]
    | _ => simp [label] at hlabel
  | overflow expression =>
    cases b with
    | overflow expression' => exact congrArg overflow hdetail
    | _ => simp [label] at hlabel

end Fault

/-! ## Values -/

namespace Value

theorem toList_text_error (fault : Fault) :
    (Value.error fault).text.toList = 'E' :: ("RROR: ".toList ++ fault.message.toList) :=
  String.toList_append

/-- Only the text of an integer is read as one. -/
theorem eq_integer_of_ofText? {v : Value} {a : Integer} (hv : ∀ w, v ≠ .returned w)
    (h : Integer.ofText? v.text = some a) : v = .integer a := by
  cases v with
  | integer b =>
    have hread : Integer.ofText? b.text = some a := h
    rw [Integer.ofText?_text] at hread
    rw [Option.some.inj hread]
  | boolean b => cases b <;> cases h
  | null => cases h
  | returned w => exact absurd rfl (hv w)
  | error fault =>
    rw [Integer.ofText?, toList_text_error] at h
    cases h

/-- **Values are told apart by their text**, unless one of them is returned. -/
theorem eq_of_text_eq {v w : Value} (hv : ∀ u, v ≠ .returned u) (hw : ∀ u, w ≠ .returned u)
    (h : v.text = w.text) : v = w := by
  -- an integer is known by being read back, and a fault by its first letter
  have hinteger : ∀ {v w : Value} {a : Integer}, v = .integer a → (∀ u, w ≠ .returned u) →
      v.text = w.text → v = w := by
    rintro _ w a rfl hw h
    exact (eq_integer_of_ofText? hw (h ▸ a.ofText?_text)).symm
  have herror : ∀ {fault : Fault} {word : String}, word.toList.head? ≠ some 'E' →
      (Value.error fault).text ≠ word := by
    intro fault word hword heq
    rw [← heq, toList_text_error] at hword
    exact hword rfl
  cases v with
  | integer a => exact hinteger rfl hw h
  | returned u => exact absurd rfl (hv u)
  | boolean b =>
    cases w with
    | integer a => exact (hinteger rfl hv h.symm).symm
    | returned u => exact absurd rfl (hw u)
    | boolean c =>
      revert h
      cases b <;> cases c <;> decide
    | null => cases b <;> exact absurd h (by decide)
    | error fault => cases b <;> exact absurd h.symm (herror (by decide))
  | null =>
    cases w with
    | integer a => exact (hinteger rfl hv h.symm).symm
    | returned u => exact absurd rfl (hw u)
    | boolean c => cases c <;> exact absurd h (by decide)
    | null => rfl
    | error fault => exact absurd h.symm (herror (by decide))
  | error fault =>
    cases w with
    | integer a => exact (hinteger rfl hv h.symm).symm
    | returned u => exact absurd rfl (hw u)
    | boolean c => cases c <;> exact absurd h (herror (by decide))
    | null => exact absurd h (herror (by decide))
    | error fault' =>
      exact congrArg Value.error (Fault.message_injective ((String.append_right_inj _).mp h))

/-- A value does not begin with a space. -/
theorem exists_text_eq_cons : ∀ v : Value, ∃ c cs, v.text.toList = c :: cs ∧ c ≠ ' '
  | .integer a => by
    have hdigits : ∃ c cs, Integer.digits a.val.natAbs = c :: cs ∧ c ≠ ' ' := by
      obtain ⟨c, cs, hcons⟩ := List.exists_cons_of_ne_nil (Nat.toDigits_ne_nil (n := a.val.natAbs))
      refine ⟨c, cs, hcons, ?_⟩
      rintro rfl
      have hdigit := Integer.isDigit_of_mem_digits (hcons ▸ List.mem_cons_self)
      cases hdigit
    show ∃ c cs, a.text.toList = c :: cs ∧ c ≠ ' '
    rw [Integer.text]
    split
    · exact ⟨'-', _, String.toList_ofList, by decide⟩
    · rw [String.toList_ofList]
      exact hdigits
  | .boolean true => ⟨'t', ['r', 'u', 'e'], rfl, by decide⟩
  | .boolean false => ⟨'f', ['a', 'l', 's', 'e'], rfl, by decide⟩
  | .null => ⟨'n', ['u', 'l', 'l'], rfl, by decide⟩
  | .returned v => exists_text_eq_cons v
  | .error fault => ⟨'E', _, toList_text_error fault, by decide⟩

end Value

/-! ## Outcomes -/

namespace Conversation

/-- What is written for the outcome of a line. -/
def printed : Except (List Diagnostic) (Option Value) → String
  | .ok none => ""
  | .ok (some value) => value.text ++ "\n"
  | .error diagnostics => Diagnostic.report diagnostics

/-- The outcome is not a returned value, nor a diagnostic that quotes anything but digits as a
numeral. -/
def Proper : Except (List Diagnostic) (Option Value) → Prop
  | .ok outcome => ∀ value, outcome ≠ some (.returned value)
  | .error diagnostics => ∀ d ∈ diagnostics, d.QuotesDigits

/-- **A line is answered by what its outcome is written as.** -/
theorem reply_eq_printed (line : String) (env : Env) :
    (reply line env).1 = printed ((evaluate line env).map Prod.fst) := by
  rw [reply]
  cases evaluate line env with
  | error diagnostics => rfl
  | ok run =>
    obtain ⟨outcome, after⟩ := run
    cases outcome with
    | none => rfl
    | some value => rfl

theorem head?_report (diagnostics : List Diagnostic) :
    (Diagnostic.report diagnostics).toList.head? = some ' ' := by
  rw [Diagnostic.toList_report]
  rfl

theorem report_ne_empty (diagnostics : List Diagnostic) : Diagnostic.report diagnostics ≠ "" := by
  intro h
  have hhead := head?_report diagnostics
  rw [h] at hhead
  cases hhead

/-- A value has a first character, which is not the one a report begins with. -/
theorem exists_head?_value (v : Value) :
    ∃ c, (v.text ++ "\n").toList.head? = some c ∧ c ≠ ' ' := by
  obtain ⟨c, cs, htext, hspace⟩ := v.exists_text_eq_cons
  refine ⟨c, ?_, hspace⟩
  rw [String.toList_append, htext]
  rfl

theorem value_ne_empty (v : Value) : v.text ++ "\n" ≠ "" := by
  intro h
  obtain ⟨c, hhead, -⟩ := exists_head?_value v
  rw [h] at hhead
  cases hhead

theorem value_ne_report (v : Value) (diagnostics : List Diagnostic) :
    v.text ++ "\n" ≠ Diagnostic.report diagnostics := by
  intro h
  obtain ⟨c, hhead, hspace⟩ := exists_head?_value v
  rw [h, head?_report] at hhead
  exact hspace (Option.some.inj hhead).symm

/-- **What is printed determines the outcome.** A line is answered by what its outcome is written
as. Of all outcomes without a returned value, and without a diagnostic that quotes anything but
digits as a numeral, no two are written alike: neither two values, whatever text a fault among them
has in it, nor two lists of diagnostics, nor any two of a value, a list and nothing. -/
theorem printed_determines_outcome :
    (∀ (line : String) (env : Env),
      (reply line env).1 = printed ((evaluate line env).map Prod.fst)) ∧
    ∀ a b : Except (List Diagnostic) (Option Value), Proper a → Proper b →
      printed a = printed b → a = b := by
  refine ⟨reply_eq_printed, fun a b ha hb h => ?_⟩
  match a, b with
  | .ok none, .ok none => rfl
  | .ok none, .ok (some v) => exact absurd h.symm (value_ne_empty v)
  | .ok none, .error diagnostics => exact absurd h.symm (report_ne_empty diagnostics)
  | .ok (some v), .ok none => exact absurd h (value_ne_empty v)
  | .ok (some v), .ok (some w) =>
    have hv : ∀ u, v ≠ .returned u := fun u heq => ha u (congrArg some heq)
    have hw : ∀ u, w ≠ .returned u := fun u heq => hb u (congrArg some heq)
    rw [Value.eq_of_text_eq hv hw ((String.append_left_inj _).mp h)]
  | .ok (some v), .error diagnostics => exact absurd h (value_ne_report v diagnostics)
  | .error diagnostics, .ok none => exact absurd h (report_ne_empty diagnostics)
  | .error diagnostics, .ok (some v) => exact absurd h.symm (value_ne_report v diagnostics)
  | .error diagnostics, .error diagnostics' =>
    have hlist : (Diagnostic.report diagnostics).toList = (Diagnostic.report diagnostics').toList :=
      congrArg String.toList h
    rw [Diagnostic.toList_report, Diagnostic.toList_report] at hlist
    rw [Diagnostic.eq_of_flatMap_eq ha hb (List.append_cancel_left hlist)]

/-- A quotient that is written as a division by zero is one. A comma that was expected is told from
one that was found, over several lines. A returned value is not told from the value inside. -/
theorem printed_determines_outcome_commas :
    let five : Integer := ⟨5, by decide, by decide⟩
    let quotient := BinaryOp.div.apply (.integer five) (.integer .zero)
    let expected := [.unexpected .comma .int, Diagnostic.invalidInteger "9223372036854775808"]
    let found := [.unexpected .int .comma, Diagnostic.invalidInteger "9223372036854775808"]
    ((Proper (.ok (some quotient)) ∧ Proper (.ok (some (.error (.divisionByZero five))))) ∧
      printed (.ok (some quotient)) = printed (.ok (some (.error (.divisionByZero five)))) ∧
      some quotient = some (.error (.divisionByZero five))) ∧
    ((Proper (.error expected) ∧ Proper (.error found)) ∧
      printed (.error expected) ≠ printed (.error found)) ∧
    printed (.ok (some (.returned .null))) = printed (.ok (some .null)) := by
  intro five quotient expected found
  have herror : ∀ fault, Proper (.ok (some (.error fault))) := fun fault value heq => by
    cases heq
  have hdigits : (Diagnostic.invalidInteger "9223372036854775808").QuotesDigits :=
    List.all_eq_true.mp (by decide)
  have hproper : ∀ a b, Proper (.error [.unexpected a b, .invalidInteger "9223372036854775808"]) :=
    fun a b => List.forall_mem_cons.mpr ⟨trivial, List.forall_mem_singleton.mpr hdigits⟩
  have hquotient : printed (.ok (some quotient)) =
      printed (.ok (some (.error (.divisionByZero five)))) := rfl
  have houtcome := printed_determines_outcome.2 _ _ (herror _) (herror _) hquotient
  refine ⟨⟨⟨herror _, herror _⟩, hquotient, Except.ok.inj houtcome⟩,
    ⟨⟨hproper _ _, hproper _ _⟩, fun h => ?_⟩, rfl⟩
  have hsame := printed_determines_outcome.2 _ _ (hproper _ _) (hproper _ _) h
  cases hsame

end Conversation

end Treewalk
