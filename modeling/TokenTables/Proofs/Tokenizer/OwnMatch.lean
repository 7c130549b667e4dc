import TokenTables.Proofs.Tokenizer.Assembly
import TokenTables.Proofs.Tokenizer.GraphRuns

/-!
What a lexical state matches. It can be told from the graph drafted for the state and from its own literal tables, and
the tables shared with other states come to the same.
-/

namespace TokenTables

open Automaton (Entry EntryName Graph StateId)
open Automaton.Graph (Labelled MoreGroups SameButDispatch StandsFor)

namespace Assembly

open Automaton (DispatchTable)

variable {g : Grammar} {options : GenerationOptions} {i offset : Nat} {update : LiteralIndex.TableUpdate} {a : Assembly}
  {t : Tokenizer}

/-- The matches by way of one literal of a lexical state. -/
def ownLiteralMatches (g : Grammar) (options : GenerationOptions) (i : Nat) (text : List Char) (e : Candidate) :
    List Match :=
  let own := ownTables g options i
  let longer := (own.tables.startStates[(i, e.kind)]?).bind fun name =>
    own.graph.lastMatch e.chars.length (own.graph.statesOf name) none (text.drop e.chars.length)
  if e.begins text then ⟨e.kind, e.chars.length⟩ :: longer.toList else []

/-- The longest match of a lexical state, from its own graph and its own tables. -/
def ownMatch (g : Grammar) (options : GenerationOptions) (i : Nat) (text : List Char) : Option Match :=
  let empty := ((emptyKind g options i).map fun k => (⟨k, 0⟩ : Match)).toList
  match text with
  | [] => Match.best empty
  | c :: _ =>
    let any := ((draft g options i).wildcard.map fun k => (⟨k, 1⟩ : Match)).toList
    let automaton := (namedGraph g options i).lastMatch 0 (closedGraph g options i).openingStates none text
    let literals := ((ownTables g options i).tables.beginningWith i c).map (ownLiteralMatches g options i text)
    Match.best (empty ++ any ++ automaton.toList ++ literals.flatten)

/-- The tables of a finished tokenizer. -/
structure HasTables (a : Assembly) (t : Tokenizer) : Prop where
  entries : t.entries = a.entries
  dispatch : t.dispatch = a.dispatch
  literals : t.literals = a.literals

/-- The graph of a lexical state with the groups of its literals. -/
def groupedGraph (g : Grammar) (options : GenerationOptions) (i : Nat) (update : LiteralIndex.TableUpdate) : Graph :=
  { update.graph with states := (namedGraph g options i).states }

theorem Placed.exports (placed : Placed g options i offset update a) (sound : Sound g options i) (tables : HasTables a t) :
    Tokenizer.Exports t offset (closedGraph g options i) (groupedGraph g options i update) update.graph ∧
      MoreGroups (namedGraph g options i) (groupedGraph g options i update) := by
  obtain ⟨table, extends_, registers⟩ := placed.graph
  obtain ⟨_, same, all⟩ := Automaton.Graph.dispatchAll_ok table sound.inside sound.clean
  have frame := Tokenizer.named_of_frame same.frame
  have more : MoreGroups (namedGraph g options i) (groupedGraph g options i update) :=
    ⟨rfl, registers.more.initial.trans frame.2.2, registers.more.named.trans frame.1,
      fun n c known => registers.more.groups n c (by rwa [frame.2.1])⟩
  have state : ∀ s : Nat, update.graph.state s = ((namedGraph g options i).dispatchAll table).1.state s := fun s => by
    unfold Graph.state
    rw [registers.more.states]
  have dispatchOnly : SameButDispatch (groupedGraph g options i update) update.graph :=
    ⟨(congrArg Array.size registers.more.states).trans same.size, rfl, fun s => by
      rw [state s]
      exact same.state s⟩
  refine ⟨⟨sound.labelled.moreGroups more, dispatchOnly, fun n e known => ?_, fun id member => ?_⟩, more⟩
  · rw [tables.entries]
    exact placed.entries n e known
  · rw [state id, tables.dispatch]
    refine .extends extends_ (all id ?_)
    rwa [← frame.1, ← registers.more.named]

theorem mapM_ok {α β ε : Type} {f : α → Except ε β} {h : α → β} {xs : List α} (each : ∀ x ∈ xs, f x = .ok (h x)) :
    xs.mapM f = .ok (xs.map h) := by
  rw [Automaton.mapM_eq_ok_iff, List.map_map]
  exact List.map_congr_left each

/-- The groups for the literals of a lexical state are those that it has by itself. -/
theorem Placed.ownGroups (placed : Placed g options i offset update a) (sound : Sound g options i) (tables : HasTables a t) :
    LiteralIndex.Registers i 0 (namedGraph g options i) (ownTables g options i) ∧
      MoreGroups (ownTables g options i).graph (groupedGraph g options i update) := by
  have own : LiteralIndex.Registers i 0 (namedGraph g options i) (ownTables g options i) :=
    LiteralIndex.register_registers sound.resumesWithin sound.ordered (LiteralIndex.absent_empty i)
  exact ⟨own, own.more.states.symm, (placed.exports sound tables).2.initial.trans own.more.initial.symm, placed.moved.named,
    fun n c known => (congrArg (·[n]?) placed.moved.groups).trans known⟩

/-- The automaton of a lexical state in its place runs as its graph does. -/
theorem Placed.automaton (placed : Placed g options i offset update a) (sound : Sound g options i) (tables : HasTables a t)
    {s : LexicalState} (isState : StateOf g options i offset update s) {text : List Char}
    (basic : ∀ c ∈ text, c.toNat ≤ Text.lastCode) : t.runFrom s.initial 0 text =
      .ok ((namedGraph g options i).lastMatch 0 (closedGraph g options i).openingStates none text) := by
  obtain ⟨exports, more⟩ := placed.exports sound tables
  have opening := exports.opening (sound.opening.moreGroups more)
  rw [Tokenizer.runFrom_eq_run, isState.initial, List.drop_zero, exports.run 0 none opening basic]
  exact congrArg _ (Automaton.Graph.lastMatch_congr more.states 0 _ none text)

/-- A lexical state in its place matches what it matches by itself. -/
theorem Placed.longestMatch (placed : Placed g options i offset update a) (sound : Sound g options i)
    (tables : HasTables a t) {s : LexicalState} (present : t.states[i]? = some s) (isState : StateOf g options i offset update s)
    {text : List Char} (basic : ∀ c ∈ text, c.toNat ≤ Text.lastCode) :
    t.longestMatch i text = .ok (ownMatch g options i text) := by
  obtain ⟨exports, more⟩ := placed.exports sound tables
  obtain ⟨own, moreOwn⟩ := placed.ownGroups sound tables
  have automaton := placed.automaton sound tables isState basic
  have literals : ∀ e, t.literalMatches i text e = .ok (ownLiteralMatches g options i text e) := by
    intro e
    have longer : t.runFrom (t.literals.startStates[(i, e.kind)]?) e.chars.length text =
        .ok (((ownTables g options i).tables.startStates[(i, e.kind)]?).bind fun name =>
          (ownTables g options i).graph.lastMatch e.chars.length ((ownTables g options i).graph.statesOf name) none
            (text.drop e.chars.length)) := by
      rw [Tokenizer.runFrom_eq_run, tables.literals, placed.starts, placed.moved.starts]
      cases start : (ownTables g options i).tables.startStates[(i, e.kind)]? with
      | none => exact (Tokenizer.runFrom_eq_run none e.chars.length text).symm
      | some name =>
        obtain ⟨_, rfl, members, stands, ordered, small⟩ := own.starts e.kind name start
        have there := stands.moreGroups moreOwn
        have count : (groupedGraph g options i update).nameCount = (ownTables g options i).graph.nameCount :=
          congrArg Array.size moreOwn.named
        have opening := exports.sameActive there ordered (by rwa [count])
        rw [Option.map_some, exports.run _ none opening fun c member => basic c (List.mem_of_mem_drop member)]
        rw [Automaton.Graph.statesOf_eq there, moreOwn.named, ← Automaton.Graph.statesOf_eq stands]
        exact congrArg _ (Automaton.Graph.lastMatch_congr moreOwn.states _ _ none _)
    unfold Tokenizer.literalMatches ownLiteralMatches
    rw [longer]
    by_cases begins : e.begins text = true
    · rw [if_pos begins, if_pos begins]
      rfl
    · rw [if_neg begins, if_neg begins]
      rfl
  unfold Tokenizer.longestMatch Tokenizer.offers ownMatch
  rw [present]
  dsimp only
  rw [isState.emptyMatch, isState.wildcard, automaton]
  cases text with
  | nil => rfl
  | cons c rest =>
    dsimp only
    rw [mapM_ok fun e _ => literals e]
    rw [tables.literals, placed.candidates, placed.moved.candidates]
    rfl

/-- A finished tokenizer has every lexical state in its place. -/
theorem tokenizer_placed (passes : g.Passes options) (inside : i < g.states.length) :
    ∃ offset update s, Placed g options i offset update (ofGrammar g options) ∧
      (tokenizer g options (ofGrammar g options)).states[i]? = some s ∧ StateOf g options i offset update s := by
  obtain ⟨offset, update, placed⟩ := (ofGrammar_progress passes).placed i inside
  obtain ⟨s, present, isState⟩ := placed.state
  exact ⟨offset, update, _, placed, tokenizer_state present, isState.initial, isState.wildcard, isState.mixesCase,
    isState.hasAutomaton, isState.emptyMatch, isState.firstEntry, isState.entryCount, isState.literals⟩

/-- Every lexical state of a generated tokenizer is in its place. -/
theorem placed_of_present {made : Generation} (generated : generate g options = .ok made) {s : LexicalState}
    (present : made.tokenizer.states[i]? = some s) : i < g.states.length ∧ ∃ offset update,
      Placed g options i offset update (ofGrammar g options) ∧ HasTables (ofGrammar g options) made.tokenizer ∧
        StateOf g options i offset update s := by
  obtain ⟨passes, tables⟩ := generate_ok generated
  rw [tables] at present ⊢
  have inside : i < g.states.length := by
    rw [← length_tokenizer_states passes]
    exact (List.getElem?_eq_some_iff.mp present).1
  obtain ⟨offset, update, own, placed, ownPresent, isState⟩ := tokenizer_placed passes inside
  obtain rfl := Option.some.inj (ownPresent.symm.trans present)
  exact ⟨inside, offset, update, placed, ⟨rfl, rfl, rfl⟩, isState⟩

/-- A generated tokenizer matches in each lexical state what this state matches by itself. -/
theorem longestMatch_eq_ownMatch {made : Generation} (generated : generate g options = .ok made)
    (inside : i < g.states.length) {text : List Char} (basic : ∀ c ∈ text, c.toNat ≤ Text.lastCode) :
    made.tokenizer.longestMatch i text = .ok (ownMatch g options i text) := by
  obtain ⟨passes, tables⟩ := generate_ok generated
  obtain ⟨offset, update, s, placed, present, isState⟩ := tokenizer_placed passes inside
  rw [tables]
  exact placed.longestMatch (sound_of_passes passes i) ⟨rfl, rfl, rfl⟩ present isState basic

theorem longestMatch_returns {made : Generation} (generated : generate g options = .ok made) (i : Nat) {text : List Char}
    (basic : ∀ c ∈ text, c.toNat ≤ Text.lastCode) : ∃ answer, made.tokenizer.longestMatch i text = .ok answer := by
  by_cases inside : i < g.states.length
  · exact ⟨_, longestMatch_eq_ownMatch generated inside basic⟩
  · obtain ⟨passes, tables⟩ := generate_ok generated
    refine ⟨none, ?_⟩
    have absent : made.tokenizer.states[i]? = none := by
      rw [tables]
      exact List.getElem?_eq_none (by rw [length_tokenizer_states passes]; exact Nat.le_of_not_lt inside)
    unfold Tokenizer.longestMatch
    rw [absent]

end Assembly

end TokenTables
