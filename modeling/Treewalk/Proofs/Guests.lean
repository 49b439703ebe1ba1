import Treewalk.Parser
import Treewalk.Proofs.Lookahead

/-!
# Rules from outside

The rules that can be registered are not only those of the language. A rule from outside is handed
the parser and may do with it what anybody may: look at the current token and at the diagnostics so
far, have an expression or a program read, and register rules, itself among them. A `Script` is what
such a rule does, and `Guests` are rules under names of their own, so that one can refer to another.
A script can go on as another guest, or as the same again. So a guest may run a loop: its names can
hold whatever the loop keeps track of.

A `Host` is a parser that runs guests. Its supply is any sequence of answers, one for each pull, and
need never come to an end. What a guest asks for may not come to an end either: nothing forbids it
to have an expression read where it stands, over and over. So a host is given a depth to which its
readers may call each other, and yields nothing where that is not enough.

Without guests this is the parser itself: `Host.exists_observations_eq` says that at every depth
from some on, the host answers all commands as the parser does.
-/

namespace Treewalk

/-! ## Scripts -/

/-- What a rule from outside does with the parser it is handed. The rules it can register are those
there are, and those from outside under their names. -/
inductive Script (Opener Joiner : Type) where
  /-- Hands back an expression, or none. -/
  | answer (value : Option Expr)
  /-- Looks at the current token and at the diagnostics so far. -/
  | look (next : Token → List Diagnostic → Script Opener Joiner)
  /-- Has an expression read. -/
  | expression (floor : Strength) (next : Option Expr → Script Opener Joiner)
  /-- Has statements read, up to the end of input. -/
  | program (next : Program → Script Opener Joiner)
  /-- Does what another rule does, and goes on with its answer. -/
  | call (guest : Opener) (next : Option Expr → Script Opener Joiner)
  | registerOpening (kind : Token.Kind) (rule : Opening ⊕ Opener) (next : Script Opener Joiner)
  | registerJoining (kind : Token.Kind) (rule : Joining ⊕ Joiner) (next : Script Opener Joiner)

/-- Rules from outside. One that joins expressions is given the expression before it. -/
structure Guests where
  Opener : Type
  Joiner : Type
  opens : Opener → Script Opener Joiner
  joins : Joiner → Expr → Script Opener Joiner

/-- No rules from outside. -/
def Guests.none : Guests := ⟨Empty, Empty, Empty.elim, Empty.elim⟩

/-- A supply of tokens in the course of being read, under rules that may be from outside. -/
structure Host (g : Guests) where
  opening : Token.Kind → Option (Opening ⊕ g.Opener)
  joining : Token.Kind → Option (Joining ⊕ g.Joiner)
  /-- What the supply answers from the current token on. Where it answers nothing, that is the end
  of input for one pull. -/
  ahead : Nat → Option Token
  pulled : Nat
  diagnostics : List Diagnostic

namespace Host

variable {g : Guests}

/-- The token the host stands on. -/
def current (host : Host g) : Token := (host.ahead 0).getD .eof

/-- The token behind the current one. -/
def upcoming (host : Host g) : Token := (host.ahead 1).getD .eof

/-- Moves onto the next token. -/
def advance (host : Host g) : Host g :=
  { host with ahead := fun n => host.ahead (n + 1), pulled := host.pulled + 1 }

/-- Keeps diagnostics. -/
def record (diagnostics : List Diagnostic) (host : Host g) : Host g :=
  { host with diagnostics := host.diagnostics ++ diagnostics }

def registerOpening (kind : Token.Kind) (rule : Opening ⊕ g.Opener) (host : Host g) : Host g :=
  { host with opening := fun k => if k = kind then some rule else host.opening k }

def registerJoining (kind : Token.Kind) (rule : Joining ⊕ g.Joiner) (host : Host g) : Host g :=
  { host with joining := fun k => if k = kind then some rule else host.joining k }

/-- Does a rule open expressions where there is no token left? -/
def opensAtEnd : Opening ⊕ g.Opener → Bool
  | .inl (.atom _) | .inr _ => true
  | .inl _ => false

/-- The rule that opens an expression at the current token. -/
def openingHere (host : Host g) : Option (Opening ⊕ g.Opener) :=
  (host.opening host.current.kind).filter fun rule => (host.ahead 0).isSome || opensAtEnd rule

/-- The rule by which the next token joins the expression before it, if it binds tighter than
`floor`. -/
def joiningNext (floor : Strength) (host : Host g) : Option (Joining ⊕ g.Joiner) :=
  if floor < host.upcoming.kind.strength then host.joining host.upcoming.kind else none

end Host

/-! ## Runs -/

/-- What is done with a host: an outcome and the host afterwards, unless the depth is not enough. -/
abbrev Run (g : Guests) (α : Type) : Type := Host g → Option (α × Host g)

namespace Run

variable {g : Guests} {α β : Type}

def done (value : α) : Run g α := fun host => some (value, host)

/-- Yields a value with diagnostics. -/
def tell (value : α) (diagnostics : List Diagnostic) : Run g α :=
  fun host => some (value, host.record diagnostics)

/-- Does what the current token and the next one call for. -/
def onTokens (next : Token → Token → Run g α) : Run g α :=
  fun host => next host.current host.upcoming host

/-- Moves onto the next token first. -/
def afterMove (run : Run g α) : Run g α := fun host => run host.advance

def bind (run : Run g α) (next : α → Run g β) : Run g β :=
  fun host => Option.bind (run host) fun result => next result.1 result.2

def map (f : α → β) (run : Run g α) : Run g β := run.bind fun value => done (f value)

/-- Goes on with what was read, unless it is nothing. -/
def andThen (run : Run g (Option α)) (next : α → Run g (Option β)) : Run g (Option β) :=
  run.bind fun
    | none => done none
    | some value => next value

/-- What was read, if anything was, in front of all that is read from the next token on. -/
def followedBy (first : Run g (Option α)) (rest : Run g (List α)) : Run g (List α) :=
  first.bind fun value => rest.afterMove.map (value.toList ++ ·)

/-- Moves onto the next token if it has the kind expected; otherwise stays and says so. -/
def expect (kind : Token.Kind) : Run g (Option Token) :=
  onTokens fun _ t =>
    if t.kind = kind then (done (some t)).afterMove else tell none [.unexpected kind t.kind]

/-- Takes the semicolon behind what was read, if there is one. -/
def separated (value : α) : Run g α :=
  onTokens fun _ t => if t.kind = .semicolon then (done value).afterMove else done value

end Run

/-! ## Readers -/

/-- The readers that others call, and the guests that scripts do. -/
structure Readers (g : Guests) where
  expr : Strength → Run g (Option Expr)
  more : Strength → Expr → Run g (Option Expr)
  body : Run g (List Stmt)
  program : Run g (List Stmt)
  guest : g.Opener → Run g (Option Expr)

/-- Does what a script says, where `self` reads. -/
def Script.run {g : Guests} (self : Readers g) :
    Script g.Opener g.Joiner → Run g (Option Expr)
  | .answer value => .done value
  | .look next => fun host => (next host.current host.diagnostics).run self host
  | .expression floor next => (self.expr floor).bind fun value => (next value).run self
  | .program next => self.program.bind fun statements => (next ⟨statements⟩).run self
  | .call guest next => (self.guest guest).bind fun value => (next value).run self
  | .registerOpening kind rule next => fun host => next.run self (host.registerOpening kind rule)
  | .registerJoining kind rule next => fun host => next.run self (host.registerJoining kind rule)

namespace Readers

open Run

variable {g : Guests} (self : Readers g)

/-- An expression in parentheses. The opening one is current. -/
def group : Run g (Option Expr) :=
  (self.expr .lowest).afterMove.andThen fun value =>
    (Run.expect .rparen).map (Option.map fun _ => value)

/-- A block that has to come next. -/
def branch : Run g (Option Block) :=
  (Run.expect .lbrace).andThen fun brace =>
    self.body.afterMove.map fun statements => some ⟨brace, statements⟩

/-- A choice. Its first token is current. -/
def conditional : Run g (Option Expr) :=
  onTokens fun t _ => (Run.expect .lparen).andThen fun _ => self.group.andThen fun condition =>
    self.branch.andThen fun consequence => onTokens fun _ next =>
      if next.kind = .kwElse then
        self.branch.afterMove.map
          (Option.map fun alternative => .conditional t condition consequence (some alternative))
      else done (some (.conditional t condition consequence none))

/-- What opens with the current token, by a given rule. -/
def openWith : Opening ⊕ g.Opener → Run g (Option Expr)
  | .inl (.atom atom) => onTokens fun t _ => tell (atom.read t).1 (atom.read t).2
  | .inl (.unary op) =>
    onTokens fun t _ => (self.expr .unary).afterMove.map (Option.map (.unary t op))
  | .inl .group => self.group
  | .inl .conditional => self.conditional
  | .inr guest => (g.opens guest).run self

/-- The leftmost operand of an expression. -/
def operand : Run g (Option Expr) := fun host =>
  match host.openingHere with
  | none => tell none [.noOpening host.current.kind] host
  | some rule => self.openWith rule host

/-- What joins an expression over the current token, by a given rule. -/
def joinWith : Joining ⊕ g.Joiner → Expr → Run g (Option Expr)
  | .inl (.binary op), left => onTokens fun t _ =>
    (self.expr t.kind.strength).afterMove.map (Option.map (.binary t left op))
  | .inl .keep, left => done (some left)
  | .inl .complement, left => onTokens fun t _ => done (some (.unary t .not left))
  | .inl .juxtapose, left =>
    onTokens fun t _ => (self.expr .call).map (Option.map (.binary t left .mul))
  | .inl .refuse, _ => done none
  | .inr guest, left => (g.joins guest left).run self

/-- One more join, if the next token binds tighter than `floor`. -/
def join (floor : Strength) (left : Expr) : Run g (Option Expr) := fun host =>
  match host.joiningNext floor with
  | none => done (some left) host
  | some rule => ((self.joinWith rule left).andThen (self.more floor)).afterMove host

/-- A binding, whose first token is `t`. -/
def binding (t : Token) : Run g (Option Stmt) :=
  (Run.expect .ident).andThen fun name => (Run.expect .assign).andThen fun _ =>
    (self.expr .lowest).afterMove.bind fun value =>
      separated (some (.binding t (.ofToken name) value))

/-- The end of a program, whose first token is `t`. -/
def result (t : Token) : Run g (Option Stmt) :=
  onTokens fun _ next =>
    if next.kind = .semicolon then (done (some (.result t none))).afterMove
    else if next.kind = .rbrace ∨ next.kind = .eof then done (some (.result t none))
    else (self.expr .lowest).afterMove.bind fun value => separated (some (.result t value))

/-- A statement, with the semicolon behind it if there is one. -/
def stmt : Run g (Option Stmt) :=
  onTokens fun t _ =>
    if t.kind = .kwLet then self.binding t
    else if t.kind = .kwReturn then self.result t
    else (self.expr .lowest).andThen fun value => separated (some (.expression t value))

/-- The readers that call the given ones. -/
def next : Readers g where
  expr floor := self.operand.andThen (self.more floor)
  more floor left := self.join floor left
  body :=
    onTokens fun t _ =>
      if t.kind = .rbrace then done []
      else if t.kind = .eof then tell [] [.unexpected .rbrace .eof]
      else self.stmt.followedBy self.body
  program :=
    onTokens fun t _ => if t.kind = .eof then done [] else self.stmt.followedBy self.program
  guest name := (g.opens name).run self

/-- The readers that call each other to a given depth. -/
def deep (g : Guests) : Nat → Readers g
  | 0 => ⟨fun _ _ => none, fun _ _ _ => none, fun _ => none, fun _ => none, fun _ _ => none⟩
  | depth + 1 => (deep g depth).next

end Readers

/-! ## Commands -/

/-- What can be seen of a parser that has obeyed a command. -/
structure Observation where
  reply : Parser.Reply
  current : Token
  upcoming : Token
  diagnostics : List Diagnostic
  pulled : Nat

/-- What is seen, command by command. -/
def Parser.observations (parser : Parser) (commands : List Parser.Command) : List Observation :=
  (parser.obeyAll commands).map fun entry =>
    ⟨entry.1, entry.2.current, Token.next (entry.2.ahead.drop 1), entry.2.diagnostics,
      entry.2.pulled⟩

namespace Host

variable {g : Guests}

/-- What a host can be asked to do. -/
inductive Command (g : Guests) where
  | program
  | expression (floor : Strength)
  | registerOpening (kind : Token.Kind) (rule : Opening ⊕ g.Opener)
  | registerJoining (kind : Token.Kind) (rule : Joining ⊕ g.Joiner)

/-- A host at the start of a supply, with the rules of the language. -/
def ofSupply (g : Guests) (supply : Nat → Option Token) : Host g where
  opening kind := (Rules.standard.opening kind).map .inl
  joining kind := (Rules.standard.joining kind).map .inl
  ahead := supply
  pulled := 2
  diagnostics := []

/-- Obeys a command, to a given depth. -/
def obey (depth : Nat) : Command g → Run g Parser.Reply
  | .program => (Readers.deep g depth).program.map fun statements => .program ⟨statements⟩
  | .expression floor => ((Readers.deep g depth).expr floor).map .expression
  | .registerOpening kind rule => fun host => some (.registered, host.registerOpening kind rule)
  | .registerJoining kind rule => fun host => some (.registered, host.registerJoining kind rule)

def observe (reply : Parser.Reply) (host : Host g) : Observation :=
  ⟨reply, host.current, host.upcoming, host.diagnostics, host.pulled⟩

/-- What is seen of a host that obeys commands in order, if the depth is enough for all of them. -/
def observations (depth : Nat) : List (Command g) → Host g → Option (List Observation)
  | [], _ => some []
  | command :: rest, host => (obey depth command host).bind fun result =>
    (observations depth rest result.2).map (result.2.observe result.1 :: ·)

end Host

/-! ## Without guests -/

namespace Host

variable {g : Guests}

/-- A parser as a host. -/
def ofParser (g : Guests) (parser : Parser) : Host g where
  opening kind := (parser.rules.opening kind).map .inl
  joining kind := (parser.rules.joining kind).map .inl
  ahead n := parser.ahead[n]?
  pulled := parser.pulled
  diagnostics := parser.diagnostics

variable (g) (parser : Parser)

@[simp] theorem current_ofParser : (ofParser g parser).current = Token.next parser.ahead := by
  obtain ⟨_, ahead, _, _⟩ := parser
  cases ahead <;> rfl

@[simp] theorem upcoming_ofParser :
    (ofParser g parser).upcoming = Token.next (parser.ahead.drop 1) := by
  obtain ⟨_, ahead, _, _⟩ := parser
  rcases ahead with _ | ⟨_, _ | ⟨_, _⟩⟩ <;> rfl

theorem advance_ofParser (rules : Rules) (ahead : List Token) (pulled : Nat)
    (diagnostics : List Diagnostic) :
    (ofParser g ⟨rules, ahead, pulled, diagnostics⟩).advance =
      ofParser g ⟨rules, ahead.drop 1, pulled + 1, diagnostics⟩ := by
  have hahead : (fun n => ahead[n + 1]?) = fun n => (ahead.drop 1)[n]? := by
    funext n
    rw [List.getElem?_drop, Nat.add_comm]
  simp only [advance, ofParser, hahead]

theorem openingHere_nil (rules : Rules) (pulled : Nat) (diagnostics : List Diagnostic) :
    (ofParser g ⟨rules, [], pulled, diagnostics⟩).openingHere =
      ((rules.opening .eof).map .inl).filter opensAtEnd := rfl

theorem openingHere_cons (rules : Rules) (t : Token) (next : List Token) (pulled : Nat)
    (diagnostics : List Diagnostic) :
    (ofParser g ⟨rules, t :: next, pulled, diagnostics⟩).openingHere =
      (rules.opening t.kind).map .inl := by
  show ((rules.opening t.kind).map Sum.inl).filter (fun _ => true) = _
  cases rules.opening t.kind <;> rfl

theorem joiningNext_ofParser (rules : Rules) (ahead : List Token) (pulled : Nat)
    (diagnostics : List Diagnostic) (floor : Strength) :
    (ofParser g ⟨rules, ahead, pulled, diagnostics⟩).joiningNext floor =
      if floor < (Token.next (ahead.drop 1)).kind.strength then
        (rules.joining (Token.next (ahead.drop 1)).kind).map .inl
      else none := by
  simp only [joiningNext, upcoming_ofParser]
  rfl

end Host

open Host

/-- From some depth on the run ends as the reading does. -/
def Settles {g : Guests} {α : Type} (run : Nat → Run g α) (rules : Rules) (ahead : List Token)
    (r : Reading α) : Prop :=
  ∃ least, ∀ depth, least ≤ depth → ∀ pulled diagnostics,
    run depth (ofParser g ⟨rules, ahead, pulled, diagnostics⟩) =
      some (r.value, ofParser g ((Parser.mk rules ahead pulled diagnostics).settle r))

namespace Settles

variable {g : Guests} {α β : Type} {rules : Rules} {ahead : List Token}

theorem tell (value : α) (found : List Diagnostic) :
    Settles (g := g) (fun _ => Run.tell value found) rules ahead ⟨value, 0, found⟩ :=
  ⟨0, fun _ _ _ _ => rfl⟩

theorem done (value : α) :
    Settles (g := g) (fun _ => Run.done value) rules ahead (.done value) := by
  refine ⟨0, fun _ _ pulled diagnostics => ?_⟩
  have hstay : (Parser.mk rules ahead pulled diagnostics).settle (Reading.done value) =
      ⟨rules, ahead, pulled, diagnostics⟩ := by
    simp only [Parser.settle, Reading.done, List.drop_zero, Nat.add_zero, List.append_nil]
  rw [hstay]
  rfl

theorem onTokens {next : Nat → Token → Token → Run g α} {r : Reading α}
    (h : Settles (fun depth => next depth (Token.next ahead) (Token.next (ahead.drop 1))) rules
      ahead r) :
    Settles (fun depth => Run.onTokens (next depth)) rules ahead r := by
  obtain ⟨least, h⟩ := h
  refine ⟨least, fun depth hdepth pulled diagnostics => ?_⟩
  simp only [Run.onTokens, current_ofParser, upcoming_ofParser]
  exact h depth hdepth pulled diagnostics

theorem afterMove {run : Nat → Run g α} {r : Reading α} (h : Settles run rules (ahead.drop 1) r) :
    Settles (fun depth => (run depth).afterMove) rules ahead (r.shift 1) := by
  obtain ⟨least, h⟩ := h
  refine ⟨least, fun depth hdepth pulled diagnostics => ?_⟩
  simp only [Run.afterMove, advance_ofParser, h depth hdepth]
  simp only [Parser.settle, Reading.shift, List.drop_drop, Nat.add_assoc]

theorem bind {run : Nat → Run g α} {next : Nat → α → Run g β} {r : Reading α} {s : Reading β}
    (h : Settles run rules ahead r)
    (hnext : Settles (fun depth => next depth r.value) rules (ahead.drop r.moves) s) :
    Settles (fun depth => (run depth).bind (next depth)) rules ahead
      ⟨s.value, r.moves + s.moves, r.diagnostics ++ s.diagnostics⟩ := by
  obtain ⟨least, h⟩ := h
  obtain ⟨least', hnext⟩ := hnext
  refine ⟨max least least', fun depth hdepth pulled diagnostics => ?_⟩
  have hfirst := h depth (by omega) pulled diagnostics
  have hsecond := hnext depth (by omega) (pulled + r.moves) (diagnostics ++ r.diagnostics)
  simp only [Run.bind, hfirst, Option.bind_some]
  simp only [Parser.settle, List.drop_drop, Nat.add_assoc, List.append_assoc] at hsecond ⊢
  exact hsecond

theorem map {run : Nat → Run g α} {r : Reading α} (h : Settles run rules ahead r) (f : α → β) :
    Settles (fun depth => (run depth).map f) rules ahead (r.map f) := by
  have hmap : Settles (fun depth => (run depth).map f) rules ahead _ := h.bind (done (f r.value))
  simp only [Reading.done, Nat.add_zero, List.append_nil] at hmap
  exact hmap

theorem andThen {run : Nat → Run g (Option α)} {next : Nat → α → Run g (Option β)}
    {r : Reading (Option α)} {others : α → Nat → Reading (Option β)}
    (h : Settles run rules ahead r)
    (hnext : ∀ a, r.value = some a →
      Settles (fun depth => next depth a) rules (ahead.drop r.moves) (others a r.moves)) :
    Settles (fun depth => (run depth).andThen (next depth)) rules ahead (r.andThen others) := by
  cases hvalue : r.value with
  | none =>
    rw [Reading.andThen_of_none hvalue]
    have hstop : Settles (fun depth => (run depth).andThen (next depth)) rules ahead _ :=
      h.bind (s := .done none) (by rw [hvalue]; exact done none)
    simp only [Reading.done, Nat.add_zero, List.append_nil] at hstop
    exact hstop
  | some a =>
    rw [Reading.andThen_of_some hvalue]
    refine h.bind ?_
    rw [hvalue]
    exact hnext a hvalue

theorem followedBy {first : Nat → Run g (Option α)} {rest : Nat → Run g (List α)}
    {r : Reading (Option α)} {others : Nat → Reading (List α)} (h : Settles first rules ahead r)
    (hrest : Settles rest rules (ahead.drop (r.moves + 1)) (others r.moves)) :
    Settles (fun depth => (first depth).followedBy (rest depth)) rules ahead
      (r.followedBy others) := by
  rw [← List.drop_drop] at hrest
  have hall : Settles (fun depth => (first depth).followedBy (rest depth)) rules ahead _ :=
    h.bind (hrest.afterMove.map (r.value.toList ++ ·))
  simp only [Reading.value_map, Reading.moves_map, Reading.diagnostics_map, Reading.value_shift,
    Reading.moves_shift, Reading.diagnostics_shift, ← Nat.add_assoc] at hall
  exact hall

theorem expect (kind : Token.Kind) :
    Settles (g := g) (fun _ => Run.expect kind) rules ahead
      (Treewalk.expect kind (ahead.drop 1)) := by
  refine onTokens ?_
  unfold Treewalk.expect
  split
  · exact (done _).afterMove
  · exact tell _ _

theorem separated (value : α) :
    Settles (g := g) (fun _ => Run.separated value) rules ahead
      ⟨value, separator (ahead.drop 1), []⟩ := by
  refine onTokens ?_
  unfold separator
  split
  · exact (done value).afterMove
  · exact done value

/-- What was read is put to use, with the semicolon behind it if there is one. -/
theorem thenSeparated {run : Nat → Run g α} {r : Reading α} (h : Settles run rules ahead r)
    (f : α → β) :
    Settles (fun depth => (run depth).bind fun value => Run.separated (f value)) rules ahead
      ⟨f r.value, r.moves + separator (ahead.drop (r.moves + 1)), r.diagnostics⟩ := by
  have hall : Settles (fun depth => (run depth).bind fun value => Run.separated (f value)) rules
    ahead _ := h.bind (separated (f r.value))
  simp only [List.drop_drop, List.append_nil] at hall
  exact hall

theorem ite {c : Prop} [Decidable c] {run run' : Nat → Run g α} {r r' : Reading α}
    (h : c → Settles run rules ahead r) (h' : ¬c → Settles run' rules ahead r') :
    Settles (fun depth => if c then run depth else run' depth) rules ahead
      (if c then r else r') := by
  split
  next hc => exact h hc
  next hc => exact h' hc

/-- What is done at this position is all that counts. -/
theorem congr {run run' : Nat → Run g α} {r : Reading α} (h : Settles run' rules ahead r)
    (heq : ∀ depth pulled diagnostics, run depth (ofParser g ⟨rules, ahead, pulled, diagnostics⟩) =
      run' depth (ofParser g ⟨rules, ahead, pulled, diagnostics⟩)) :
    Settles run rules ahead r := by
  obtain ⟨least, h⟩ := h
  exact ⟨least, fun depth hdepth pulled diagnostics =>
    (heq depth pulled diagnostics).trans (h depth hdepth pulled diagnostics)⟩

/-- One call more is made at one depth more. -/
theorem succ {run : Nat → Run g α} {r : Reading α}
    (h : Settles (fun depth => run (depth + 1)) rules ahead r) : Settles run rules ahead r := by
  obtain ⟨least, h⟩ := h
  refine ⟨least + 1, fun depth hdepth pulled diagnostics => ?_⟩
  obtain ⟨depth, rfl⟩ : ∃ d, depth = d + 1 := ⟨depth - 1, by omega⟩
  exact h depth (by omega) pulled diagnostics

/-- Where no rule joins, the expression stays what it is. -/
theorem join_stay {floor : Strength} (left : Expr)
    (h : ∀ pulled diagnostics,
      (ofParser g ⟨rules, ahead, pulled, diagnostics⟩).joiningNext floor = none) :
    Settles (fun depth => (Readers.deep g depth).join floor left) rules ahead
      (.done (some left)) := by
  refine (done (some left)).congr fun depth pulled diagnostics => ?_
  simp only [Readers.join, h]

end Settles

namespace Rules

open Readers

variable {g : Guests}

/-! One lemma for each reader, along its own recursion. A call of `expr`, `more`, `body` or
`program` takes one depth more (`Settles.succ`); the others are called at the depth they are at. -/

mutual

theorem readExpr_settles (rules : Rules) (floor : Strength) (ahead : List Token) :
    Settles (fun depth => (deep g depth).expr floor) rules ahead (rules.readExpr floor ahead) := by
  rw [readExpr]
  refine .succ ((rules.readOperand_settles ahead).andThen fun left _ => ?_)
  exact rules.readMore_settles floor left _
termination_by 8 * ahead.length + 3
decreasing_by
  · omega
  · simp only [List.length_drop]; omega

theorem readOperand_settles (rules : Rules) (ahead : List Token) :
    Settles (fun depth => (deep g depth).operand) rules ahead (rules.readOperand ahead) := by
  match ahead with
  | [] =>
    -- at the end of input the host passes over the same rules as the reader
    cases hopen : rules.opening .eof with
    | none =>
      rw [readOperand, hopen]
      refine (Settles.tell none [.noOpening .eof]).congr fun depth pulled diagnostics => ?_
      simp only [operand, openingHere_nil, hopen]
      rfl
    | some opening =>
      rw [readOperand, hopen]
      cases opening with
      | atom atom =>
        refine (Settles.tell _ _).congr fun depth pulled diagnostics => ?_
        simp only [operand, openingHere_nil, hopen]
        rfl
      | unary | group | conditional =>
        refine (Settles.tell none [.noOpening .eof]).congr fun depth pulled diagnostics => ?_
        simp only [operand, openingHere_nil, hopen]
        rfl
  | t :: next =>
    cases hopen : rules.opening t.kind with
    | none =>
      rw [readOperand, hopen]
      refine (Settles.tell none [.noOpening t.kind]).congr fun depth pulled diagnostics => ?_
      simp only [operand, openingHere_cons, hopen, Option.map_none]
      rfl
    | some opening =>
      have hwith : Settles (fun depth => (deep g depth).openWith (.inl opening)) rules (t :: next)
          (rules.readOperand (t :: next)) := by
        rw [readOperand, hopen]
        cases opening with
        | atom atom =>
          simp only [openWith]
          exact .onTokens (.tell _ _)
        | unary op =>
          simp only [openWith]
          exact .onTokens ((rules.readExpr_settles .unary next).afterMove.map _)
        | group => exact rules.readGroup_settles (t :: next)
        | conditional => exact rules.readConditional_settles t next
      refine hwith.congr fun depth pulled diagnostics => ?_
      simp only [operand, openingHere_cons, hopen, Option.map_some]
termination_by 8 * ahead.length + 2
decreasing_by all_goals simp only [List.length_cons]; omega

theorem readMore_settles (rules : Rules) (floor : Strength) (left : Expr) (ahead : List Token) :
    Settles (fun depth => (deep g depth).more floor left) rules ahead
      (rules.readMore floor left ahead) := by
  refine .succ ?_
  match ahead with
  | [] | [_] =>
    -- what comes next is the end of input, which binds no tighter than anything
    simp only [readMore]
    refine .join_stay left fun pulled diagnostics => ?_
    rw [joiningNext_ofParser]
    exact if_neg (Strength.not_lt_lowest floor)
  | x :: t :: next =>
    rw [readMore]
    split
    next hfloor =>
      cases hjoin : rules.joining t.kind with
      | none =>
        refine .join_stay left fun pulled diagnostics => ?_
        rw [joiningNext_ofParser]
        exact (if_pos hfloor).trans (congrArg _ hjoin)
      | some joining =>
        have hjoined : Settles (fun depth =>
            ((deep g depth).joinWith (.inl joining) left).andThen ((deep g depth).more floor))
            rules (t :: next) ((rules.readJoined joining left t next).andThen fun whole m =>
              rules.readMore floor whole ((t :: next).drop m)) :=
          (rules.readJoined_settles joining left t next).andThen fun whole _ =>
            rules.readMore_settles floor whole _
        refine (Settles.afterMove hjoined).congr fun depth pulled diagnostics => ?_
        have hnext : (ofParser g ⟨rules, x :: t :: next, pulled, diagnostics⟩).joiningNext floor =
            some (.inl joining) := by
          rw [joiningNext_ofParser]
          exact (if_pos hfloor).trans (congrArg _ hjoin)
        show (deep g depth).join floor left _ = _
        simp only [join, hnext]
    next hfloor =>
      refine .join_stay left fun pulled diagnostics => ?_
      rw [joiningNext_ofParser]
      exact if_neg hfloor
termination_by 8 * ahead.length + 1
decreasing_by all_goals simp only [List.length_drop, List.length_cons]; omega

theorem readJoined_settles (rules : Rules) (joining : Joining) (left : Expr) (t : Token)
    (next : List Token) :
    Settles (fun depth => (deep g depth).joinWith (.inl joining) left) rules (t :: next)
      (rules.readJoined joining left t next) := by
  cases joining with
  | binary op =>
    simp only [joinWith, readJoined]
    exact .onTokens ((rules.readExpr_settles t.kind.strength next).afterMove.map _)
  | keep =>
    simp only [joinWith, readJoined]
    exact .done _
  | complement =>
    simp only [joinWith, readJoined]
    exact .onTokens (.done _)
  | juxtapose =>
    simp only [joinWith, readJoined]
    exact .onTokens ((rules.readExpr_settles .call (t :: next)).map _)
  | refuse =>
    simp only [joinWith, readJoined]
    exact .done _
termination_by 8 * next.length + 12
decreasing_by
  · omega
  · simp only [List.length_cons]; omega

theorem readGroup_settles (rules : Rules) (ahead : List Token) :
    Settles (fun depth => (deep g depth).group) rules ahead (rules.readGroup (ahead.drop 1)) := by
  rw [readGroup]
  refine (rules.readExpr_settles .lowest (ahead.drop 1)).afterMove.andThen fun value _ => ?_
  rw [List.drop_drop, Nat.add_comm 1, ← List.drop_drop]
  exact (Settles.expect .rparen).map _
termination_by 8 * (ahead.length - 1) + 4
decreasing_by simp only [List.length_drop]; omega

theorem readConditional_settles (rules : Rules) (t : Token) (next : List Token) :
    Settles (fun depth => (deep g depth).conditional) rules (t :: next)
      (rules.readConditional t next) := by
  rw [readConditional]
  refine .onTokens ((Settles.expect .lparen).andThen fun _ hparen => ?_)
  rw [moves_of_expect hparen]
  refine (rules.readGroup_settles next).andThen fun condition _ => ?_
  rw [← List.drop_drop]
  refine (rules.readBranch_settles _).andThen fun consequence _ => .onTokens ?_
  -- from here on only where the condition and the first block came to rest counts
  generalize (rules.readGroup (next.drop 1)).moves = m
  generalize (rules.readBranch ((next.drop m).drop 1)).moves = n
  have halternative : Settles (fun depth => (deep g depth).branch.afterMove) rules
    ((next.drop m).drop n) _ := (rules.readBranch_settles _).afterMove
  simp only [List.drop_drop, Nat.add_assoc] at halternative ⊢
  exact .ite (fun _ => halternative.map _) fun _ => .done _
termination_by 8 * next.length + 7
decreasing_by
  · omega
  all_goals simp only [List.length_drop]; omega

theorem readBranch_settles (rules : Rules) (ahead : List Token) :
    Settles (fun depth => (deep g depth).branch) rules ahead (rules.readBranch (ahead.drop 1)) := by
  rw [readBranch]
  refine (Settles.expect .lbrace).andThen fun brace hbrace => ?_
  rw [moves_of_expect hbrace]
  exact (rules.readBody_settles _).afterMove.map _
termination_by 8 * (ahead.length - 1) + 6
decreasing_by simp only [List.length_drop]; omega

theorem readBody_settles (rules : Rules) (ahead : List Token) :
    Settles (fun depth => (deep g depth).body) rules ahead (rules.readBody ahead) := by
  refine .succ ?_
  simp only [deep, Readers.next]
  refine .onTokens ?_
  match ahead with
  | [] =>
    rw [readBody]
    exact .tell _ _
  | t :: next =>
    rw [readBody]
    refine .ite (fun _ => .done _) fun _ => .ite (fun _ => .tell _ _) fun _ => ?_
    exact (rules.readStmt_settles t next).followedBy (rules.readBody_settles _)
termination_by 8 * ahead.length + 5
decreasing_by all_goals simp only [List.length_drop, List.length_cons]; omega

theorem readStmt_settles (rules : Rules) (t : Token) (next : List Token) :
    Settles (fun depth => (deep g depth).stmt) rules (t :: next) (rules.readStmt t next) := by
  rw [readStmt]
  refine .onTokens (.ite (fun _ => rules.readBinding_settles t next) fun _ =>
    .ite (fun _ => rules.readResult_settles t next) fun _ => ?_)
  refine (rules.readExpr_settles .lowest (t :: next)).andThen fun value _ => ?_
  show Settles _ rules _ ⟨_, separator ((t :: next).drop (_ + 1)), []⟩
  rw [← List.drop_drop]
  exact .separated _
termination_by 8 * next.length + 12
decreasing_by
  · omega
  · omega
  · simp only [List.length_cons]; omega

theorem readBinding_settles (rules : Rules) (t : Token) (next : List Token) :
    Settles (fun depth => (deep g depth).binding t) rules (t :: next)
      (rules.readBinding t next) := by
  rw [readBinding]
  refine (Settles.expect .ident).andThen fun name hname => ?_
  rw [moves_of_expect hname]
  refine (Settles.expect .assign).andThen fun _ hassign => ?_
  rw [moves_of_expect hassign]
  have hvalue := (rules.readExpr_settles .lowest ((next.drop 1).drop 1)).afterMove.thenSeparated
    fun value => some (Stmt.binding t (.ofToken name) value)
  simp only [List.drop_drop, Nat.add_comm 1, Nat.add_assoc] at hvalue ⊢
  exact hvalue
termination_by 8 * next.length + 8
decreasing_by all_goals simp only [List.length_drop]; omega

theorem readResult_settles (rules : Rules) (t : Token) (next : List Token) :
    Settles (fun depth => (deep g depth).result t) rules (t :: next)
      (rules.readResult t next) := by
  rw [readResult]
  refine .onTokens (.ite (fun _ => (Settles.done _).afterMove) fun _ =>
    .ite (fun _ => .done _) fun _ => ?_)
  exact (rules.readExpr_settles .lowest next).afterMove.thenSeparated fun value =>
    some (Stmt.result t value)
termination_by 8 * next.length + 8
decreasing_by all_goals omega

end

theorem readProgram_settles (rules : Rules) (ahead : List Token) :
    Settles (fun depth => (deep g depth).program) rules ahead (rules.readProgram ahead) := by
  refine .succ ?_
  simp only [deep, Readers.next]
  refine .onTokens ?_
  match ahead with
  | [] =>
    rw [readProgram]
    exact .done _
  | t :: next =>
    rw [readProgram]
    refine .ite (fun _ => .done _) fun _ => ?_
    exact (rules.readStmt_settles t next).followedBy (rules.readProgram_settles _)
termination_by ahead.length
decreasing_by simp only [List.length_drop, List.length_cons]; omega

end Rules

namespace Host

variable (g : Guests)

/-- A command that names no guest. -/
def Command.ofParser : Parser.Command → Command g
  | .program => .program
  | .expression floor => .expression floor
  | .registerOpening kind opening => .registerOpening kind (.inl opening)
  | .registerJoining kind joining => .registerJoining kind (.inl joining)

/-- From some depth on a host without guests obeys as the parser does. -/
theorem exists_obey_eq (parser : Parser) (command : Parser.Command) :
    ∃ least, ∀ depth, least ≤ depth →
      obey depth (.ofParser g command) (ofParser g parser) =
        some ((parser.obey command).1, ofParser g (parser.obey command).2) := by
  obtain ⟨rules, ahead, pulled, diagnostics⟩ := parser
  cases command with
  | program =>
    obtain ⟨least, h⟩ := (rules.readProgram_settles (g := g) ahead).map fun statements =>
      Parser.Reply.program ⟨statements⟩
    exact ⟨least, fun depth hdepth => h depth hdepth pulled diagnostics⟩
  | expression floor =>
    obtain ⟨least, h⟩ := (rules.readExpr_settles (g := g) floor ahead).map Parser.Reply.expression
    exact ⟨least, fun depth hdepth => h depth hdepth pulled diagnostics⟩
  | registerOpening kind opening =>
    refine ⟨0, fun _ _ => congrArg (fun host => some (Parser.Reply.registered, host)) ?_⟩
    simp only [Host.registerOpening, ofParser, Host.mk.injEq, and_true, Parser.obey]
    refine ⟨funext fun k => ?_, rfl⟩
    rw [Rules.opening_registerOpening]
    split <;> rfl
  | registerJoining kind joining =>
    refine ⟨0, fun _ _ => congrArg (fun host => some (Parser.Reply.registered, host)) ?_⟩
    simp only [Host.registerJoining, ofParser, Host.mk.injEq, and_true, Parser.obey]
    refine ⟨rfl, funext fun k => ?_⟩
    rw [Rules.joining_registerJoining]
    split <;> rfl

/-- From some depth on, what is seen of a host that obeys commands without guests is what is seen of
the parser. -/
theorem exists_observations_eq (commands : List Parser.Command) (parser : Parser) :
    ∃ least, ∀ depth, least ≤ depth →
      observations depth (commands.map (.ofParser g)) (ofParser g parser) =
        some (parser.observations commands) := by
  induction commands generalizing parser with
  | nil => exact ⟨0, fun _ _ => rfl⟩
  | cons command rest ih =>
    obtain ⟨least, hobey⟩ := exists_obey_eq g parser command
    obtain ⟨least', hrest⟩ := ih (parser.obey command).2
    refine ⟨max least least', fun depth hdepth => ?_⟩
    rw [List.map_cons, observations, hobey depth (by omega), Option.bind_some,
      hrest depth (by omega), Option.map_some]
    simp only [observe, current_ofParser, upcoming_ofParser]
    rfl

end Host

end Treewalk
