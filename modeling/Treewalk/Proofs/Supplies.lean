import Treewalk.Proofs.Comparison

/-!
# Supplies without an end

A parser stands before a list of tokens, behind which there is nothing but the end of input. A
supply need not be like this: it may go on for ever, and then reading may go on for ever too. But
whatever comes to an end has looked at a start of its supply only, as far as the token behind the
one on which it came to rest. So it ends in the same way on every supply with this start, and at
every greater depth (`Run.Extends`).

Hence a command that ends on a supply of any kind does there what the parser does on a start of the
supply that is long enough (`Host.Ends.exists_moves`), and the other way round
(`Host.ends_of_obey`).
-/

namespace Treewalk

variable {g : Guests} {α β : Type}

/-- A supply from further on. -/
def later (moves : Nat) (supply : Nat → α) : Nat → α := fun n => supply (n + moves)

theorem later_later (m n : Nat) (supply : Nat → α) :
    later n (later m supply) = later (m + n) supply := by
  funext i
  simp only [later, Nat.add_assoc, Nat.add_comm m n]

/-- The first tokens of a supply. -/
def Token.start (supply : Nat → Token) (n : Nat) : List Token := (List.range n).map supply

namespace Token

theorem getElem?_start {n i : Nat} (h : i < n) (supply : Nat → Token) :
    (start supply n)[i]? = some (supply i) := by
  rw [start, List.getElem?_map, List.getElem?_range h, Option.map_some]

theorem start_add (supply : Nat → Token) (m n : Nat) :
    start supply (m + n) = start supply m ++ start (later m supply) n := by
  simp only [start, List.range_add, List.map_append, List.map_map]
  congr 2
  funext i
  exact congrArg supply (Nat.add_comm m i)

theorem next_start (supply : Nat → Token) (n : Nat) :
    next (start supply (n + 1)) = supply 0 := by
  rw [start, List.range_succ_eq_map]
  rfl

theorem length_start (supply : Nat → Token) (n : Nat) : (start supply n).length = n := by
  rw [start, List.length_map, List.length_range]

theorem start_congr {supply supply' : Nat → Token} {n : Nat}
    (h : ∀ i < n, supply' i = supply i) : start supply' n = start supply n :=
  List.map_congr_left fun i hi => h i (List.mem_range.mp hi)

end Token

/-! ## What ends has seen a start only -/

/-- The host with another supply before it. -/
def Host.facing (host : Host g) (supply : Nat → Option Token) : Host g :=
  { host with ahead := supply }

theorem Host.sight_facing {host : Host g} {supply : Nat → Option Token}
    (h : ∀ n < 2, supply n = host.ahead n) : (host.facing supply).sight = host.sight := by
  simp only [sight, current, upcoming, openingHere, joiningNext, facing, h 0 (by omega),
    h 1 (by omega)]
  rfl

/-- Where the first run ends, the second ends in the same way, and it does so on every supply that
answers the same up to the token behind the one on which the first comes to rest. -/
def Run.Extends (r r' : Run g α) : Prop :=
  ∀ host value host', r host = some (value, host') →
    ∃ moves, host'.pulled = host.pulled + moves ∧ host'.ahead = later moves host.ahead ∧
      ∀ supply, (∀ n < moves + 2, supply n = host.ahead n) →
        r' (host.facing supply) = some (value, host'.facing (later moves supply))

/-- Runs compare if the second extends the first. -/
def Comparison.extension (g : Guests) : Comparison g where
  Rel := Run.Extends
  done value := by
    intro host _ _ h
    obtain ⟨rfl, rfl⟩ := Prod.mk.inj (Option.some.inj h)
    exact ⟨0, rfl, rfl, fun _ _ => rfl⟩
  tell value found := by
    intro host _ _ h
    obtain ⟨rfl, rfl⟩ := Prod.mk.inj (Option.some.inj h)
    exact ⟨0, rfl, rfl, fun _ _ => rfl⟩
  onSight {α f k} h := by
    intro host value host' hrun
    obtain ⟨moves, hpulled, hahead, hends⟩ := h host.sight host value host' hrun
    refine ⟨moves, hpulled, hahead, fun supply hsupply => ?_⟩
    show k (host.facing supply).sight (host.facing supply) = _
    rw [Host.sight_facing fun n hn => hsupply n (by omega)]
    exact hends supply hsupply
  afterMove h := by
    intro host value host' hrun
    obtain ⟨moves, hpulled, hahead, hends⟩ := h host.advance value host' hrun
    refine ⟨moves + 1, ?_, ?_, fun supply hsupply => ?_⟩
    · rw [hpulled]
      exact Nat.add_right_comm _ _ _
    · rw [hahead]
      rfl
    · exact hends (later 1 supply) fun n hn => hsupply (n + 1) (by omega)
  bind {α β r r' f f'} h hf := by
    intro host value host' hrun
    obtain ⟨⟨first, middle⟩, hfirst, hsecond⟩ := Option.bind_eq_some_iff.mp hrun
    obtain ⟨m, hpulled, hahead, hends⟩ := h host first middle hfirst
    obtain ⟨k, hpulled', hahead', hends'⟩ := hf first middle value host' hsecond
    refine ⟨m + k, by omega, by rw [hahead', hahead, later_later], fun supply hsupply => ?_⟩
    have hmiddle := hends supply fun n hn => hsupply n (by omega)
    have hlast := hends' (later m supply) fun n hn => by
      rw [hahead]
      exact hsupply (n + m) (by omega)
    rw [later_later] at hlast
    simp only [Run.bind, hmiddle, Option.bind_some]
    exact hlast
  registerOpening kind rule h := by
    intro host value host' hrun
    exact h (host.registerOpening kind rule) value host' hrun
  registerJoining kind rule h := by
    intro host value host' hrun
    exact h (host.registerJoining kind rule) value host' hrun

/-- **What ends at some depth ends so at every greater depth**, and on every supply that is the same
as far as was seen. -/
theorem Comparison.related_extension {depth depth' : Nat} (h : depth ≤ depth') :
    (extension g).Related (Readers.deep g depth) (Readers.deep g depth') := by
  induction depth generalizing depth' with
  | zero =>
    have hnone : ∀ (β : Type) (r : Run g β), Run.Extends (fun _ => none) r :=
      fun _ _ _ _ _ hrun => by cases hrun
    exact ⟨fun _ => hnone _ _, fun _ _ => hnone _ _, hnone _ _, hnone _ _, fun _ => hnone _ _⟩
  | succ depth ih =>
    obtain ⟨k, rfl⟩ : ∃ k, depth' = k + 1 := ⟨depth' - 1, by omega⟩
    exact (ih (by omega)).next

namespace Host

theorem obey_extends {depth depth' : Nat} (h : depth ≤ depth') (command : Command g) :
    (obey depth command).Extends (obey depth' command) :=
  (Comparison.extension g).obey (Comparison.related_extension h) command

/-- The command comes to an end, and this is its reply and the host afterwards. -/
def Ends (host : Host g) (command : Command g) (reply : Parser.Reply) (host' : Host g) : Prop :=
  ∃ depth, obey depth command host = some (reply, host')

/-! ## Starts of a supply -/

/-- A host without guests among its rules, before a supply that answers every pull. -/
def ofStream (g : Guests) (rules : Rules) (supply : Nat → Token) (pulled : Nat)
    (diagnostics : List Diagnostic) : Host g where
  opening kind := (rules.opening kind).map .inl
  joining kind := (rules.joining kind).map .inl
  ahead n := some (supply n)
  pulled := pulled
  diagnostics := diagnostics

variable {rules : Rules} {supply : Nat → Token} {pulled : Nat} {diagnostics : List Diagnostic}

/-- A run that ends does what it does for a parser before a start of the supply, on every one that
is long enough. -/
theorem exists_moves_of_extends (run : Nat → Run g α)
    (hrun : ∀ {depth depth' : Nat}, depth ≤ depth' → (run depth).Extends (run depth')) {depth : Nat}
    {value : α} {host' : Host g}
    (h : run depth (ofStream g rules supply pulled diagnostics) = some (value, host')) :
    ∃ moves, ∀ n, moves + 2 ≤ n → ∀ (value' : α) (parser : Parser),
      (∃ least, ∀ depth, least ≤ depth →
        run depth (ofParser g ⟨rules, Token.start supply n, pulled, diagnostics⟩) =
          some (value', ofParser g parser)) →
      value' = value ∧ parser.pulled = pulled + moves ∧
        host' = ofStream g parser.rules (later moves supply) parser.pulled parser.diagnostics := by
  obtain ⟨moves, hpulled, hahead, -⟩ := hrun (Nat.le_refl depth) _ _ _ h
  refine ⟨moves, fun n hn value' parser ⟨least, hparser⟩ => ?_⟩
  -- deep enough, the start of the supply is read in both ways
  obtain ⟨moves', hpulled', -, hends⟩ := hrun (Nat.le_max_left depth least) _ _ _ h
  obtain rfl : moves' = moves := by omega
  have hlist := hends ((Token.start supply n)[·]?) fun i hi =>
    Token.getElem?_start (by omega) supply
  obtain ⟨hvalue, hhost⟩ := Prod.mk.inj <| Option.some.inj <|
    hlist.symm.trans (hparser _ (Nat.le_max_right depth least))
  refine ⟨hvalue.symm, ?_, ?_⟩
  · exact (congrArg Host.pulled hhost).symm.trans hpulled
  · have hfacing := congrArg (Host.facing · (later moves' fun i => some (supply i))) hhost
    exact (congrArg host'.facing hahead).trans hfacing

variable (command : Parser.Command)

/-- **A command that ends does what the parser does on a start of the supply**, on every one that is
long enough. -/
theorem Ends.exists_moves {reply : Parser.Reply} {host' : Host g}
    (h : Ends (ofStream g rules supply pulled diagnostics) (.ofParser g command) reply host') :
    ∃ moves, ∀ n, moves + 2 ≤ n →
      let result := (Parser.mk rules (Token.start supply n) pulled diagnostics).obey command
      result.1 = reply ∧ result.2.pulled = pulled + moves ∧
        host' = ofStream g result.2.rules (later moves supply) result.2.pulled
          result.2.diagnostics := by
  obtain ⟨depth, hobey⟩ := h
  obtain ⟨moves, hmoves⟩ := exists_moves_of_extends (fun depth => obey depth _)
    (fun hle => obey_extends hle _) hobey
  exact ⟨moves, fun n hn => hmoves n hn _ _ (exists_obey_eq g _ command)⟩

/-- **What the parser does on a start of a supply is done on the supply**, if the start goes as far
as the token behind the one on which it comes to rest. -/
theorem ends_of_obey {n moves : Nat} (hn : moves + 2 ≤ n) :
    let result := (Parser.mk rules (Token.start supply n) pulled diagnostics).obey command
    result.2.pulled = pulled + moves →
      Ends (ofStream g rules supply pulled diagnostics) (.ofParser g command) result.1
        (ofStream g result.2.rules (later moves supply) result.2.pulled result.2.diagnostics) := by
  intro result hpulled
  obtain ⟨depth, hparser⟩ :=
    exists_obey_eq g (Parser.mk rules (Token.start supply n) pulled diagnostics) command
  obtain ⟨moves', hpulled', -, hends⟩ :=
    obey_extends (Nat.le_refl depth) _ _ _ _ (hparser depth (Nat.le_refl depth))
  obtain rfl : moves' = moves := Nat.add_left_cancel (hpulled'.symm.trans hpulled)
  exact ⟨depth, hends (fun i => some (supply i)) fun i hi =>
    (Token.getElem?_start (by omega) supply).symm⟩

end Host

end Treewalk
