import TokenTables.Proofs.Literal.Tables
import TokenTables.Proofs.Tokenizer.Drafts
import TokenTables.Proofs.Tokenizer.Export

/-!
Where a lexical state stands among the tables. Its entries follow those of the states before it, its literals have
cells of their own, and what is assembled after it leaves all that as it is.
-/

namespace TokenTables.Assembly

open Automaton (DispatchTable Entry EntryName Graph StateId)
open Automaton.Graph (Completed Fresh GroupsInOrder Labelled MoreGroups SameButDispatch StandsFor)

variable {g : Grammar} {options : GenerationOptions} {i : Nat} {a b : Assembly}

/-! ### What belongs to a lexical state -/

/-- The graph of a lexical state, closed. -/
def closedGraph (g : Grammar) (options : GenerationOptions) (i : Nat) : Graph :=
  (draft g options i).graph.completeAll options.closing

/-- The graph of a lexical state, closed and named. -/
def namedGraph (g : Grammar) (options : GenerationOptions) (i : Nat) : Graph := (closedGraph g options i).nameAll.1

/-- The kind of the empty text. -/
def emptyKind (g : Grammar) (options : GenerationOptions) (i : Nat) : Option Kind :=
  (namedGraph g options i).openingKind.filter (· != Kind.endOfInput)

/-- The literals of a lexical state, with the names to go on from. -/
def literalIndex (g : Grammar) (options : GenerationOptions) (i : Nat) : LiteralIndex :=
  let d := draft g options i
  let index := { d.index with mixesCase := d.mixesCase }.markExtended
  if (namedGraph g options i).nameCount != 0 && !d.mixesCase then
    index.findResumptions (namedGraph g options i) d.wildcard
  else index

/-- The literal tables of a lexical state by itself, with names counted from 0. -/
def ownTables (g : Grammar) (options : GenerationOptions) (i : Nat) : LiteralIndex.TableUpdate :=
  (literalIndex g options i).register i 0 (namedGraph g options i) {}

/-- The graph of a lexical state with its dispatch methods among those of the states before. -/
def dispatched (g : Grammar) (options : GenerationOptions) (i : Nat) (a : Assembly) : Graph × DispatchTable :=
  (namedGraph g options i).dispatchAll a.dispatch

/-- The literals of a lexical state registered after those of the states before. -/
def registered (g : Grammar) (options : GenerationOptions) (i : Nat) (a : Assembly) : LiteralIndex.TableUpdate :=
  (literalIndex g options i).register i a.entries.size (dispatched g options i a).1 a.literals

theorem nameAll_closed : ((draft g options i).graph.completeAll options.closing).nameAll =
    (namedGraph g options i, (closedGraph g options i).nameAll.2) := by
  unfold namedGraph closedGraph
  rfl

/-- What a lexical state comes to depends on the tables before it only by where its entries begin. -/
structure StateOf (g : Grammar) (options : GenerationOptions) (i offset : Nat) (update : LiteralIndex.TableUpdate)
    (s : LexicalState) : Prop where
  initial : s.initial = (closedGraph g options i).nameAll.2.map (· + offset)
  wildcard : s.wildcard = (draft g options i).wildcard
  mixesCase : s.mixesCase = (draft g options i).mixesCase
  hasAutomaton : s.hasAutomaton = ((namedGraph g options i).nameCount != 0)
  emptyMatch : s.emptyMatch = emptyKind g options i
  firstEntry : s.firstEntry = offset
  entryCount : s.entryCount = (update.graph.entries offset).length
  literals : s.literals = (literalIndex g options i).shiftStates offset

theorem finishState_tables (name : String) (a : Assembly) (d : StateDraft) {graph : Graph} {first : Option EntryName}
    (named : (d.graph.completeAll options.closing).nameAll = (graph, first)) :
    let index := { d.index with mixesCase := d.mixesCase }.markExtended
    let index := if graph.nameCount != 0 && !d.mixesCase then index.findResumptions graph d.wildcard else index
    let update := index.register i a.entries.size (graph.dispatchAll a.dispatch).1 a.literals
    let after := finishState options i name a d
    after.entries = a.entries ++ (update.graph.entries a.entries.size).toArray ∧
      after.dispatch = (graph.dispatchAll a.dispatch).2 ∧ after.literals = update.tables ∧
      ∃ s, after.states = a.states ++ [s] ∧ s.initial = first.map (· + a.entries.size) ∧ s.wildcard = d.wildcard ∧
        s.mixesCase = d.mixesCase ∧ s.hasAutomaton = (graph.nameCount != 0) ∧
        s.emptyMatch = graph.openingKind.filter (· != Kind.endOfInput) ∧ s.firstEntry = a.entries.size ∧
        s.entryCount = (update.graph.entries a.entries.size).length ∧ s.literals = index.shiftStates a.entries.size := by
  unfold finishState
  rw [named]
  exact ⟨rfl, rfl, rfl, _, rfl, rfl, rfl, rfl, rfl, rfl, rfl, rfl, rfl⟩

theorem addState_tables (g : Grammar) (options : GenerationOptions) (i : Nat) (a : Assembly) (name : String) :
    (addState g options a name i).entries = a.entries ++ ((registered g options i a).graph.entries a.entries.size).toArray ∧
    (addState g options a name i).dispatch = (dispatched g options i a).2 ∧
    (addState g options a name i).literals = (registered g options i a).tables ∧
    ∃ s, (addState g options a name i).states = a.states ++ [s] ∧
      StateOf g options i a.entries.size (registered g options i a) s := by
  obtain ⟨entries, dispatch, literals, states⟩ := takenRules_sameTables g options i a
  obtain ⟨ofEntries, ofDispatch, ofLiterals, s, ofStates, initial, wildcard, mixes, automaton, emptyMatch, first, count,
    index⟩ :=
    finishState_tables (i := i) name (takenRules g options i a) (draft g options i) nameAll_closed
  rw [entries, dispatch, literals] at ofEntries count
  rw [dispatch] at ofDispatch
  rw [entries, dispatch, literals] at ofLiterals
  rw [states] at ofStates
  rw [entries] at initial first index
  rw [addState_eq]
  exact ⟨ofEntries, ofDispatch, ofLiterals, s, ofStates, initial, wildcard, mixes, automaton, emptyMatch, first, count,
    index⟩

/-! ### The named graph of a state -/

/-- What closing and naming establish about the graph of a lexical state. -/
structure Sound (g : Grammar) (options : GenerationOptions) (i : Nat) : Prop where
  labelled : Labelled (closedGraph g options i) (namedGraph g options i)
  ordered : GroupsInOrder (namedGraph g options i)
  opening : StandsFor (namedGraph g options i) (closedGraph g options i).nameAll.2
    ((namedGraph g options i).entryNames (closedGraph g options i).openingStates)
  inside : ∀ id ∈ (namedGraph g options i).named.toList, id < (namedGraph g options i).size
  clean : ∀ s : Nat, ((namedGraph g options i).state s).dispatch = none

theorem sound_of_passes (passes : g.Passes options) (i : Nat) : Sound g options i := by
  have fresh := draft_fresh passes i
  obtain ⟨sem, completed⟩ := Automaton.Graph.completeAll_completed fresh options.closing
  have nameable := completed.nameable fresh
  obtain ⟨labelled, ordered, opening⟩ := Automaton.Graph.nameAll_labelled nameable
  refine ⟨labelled, ordered, opening, fun id member => ?_, fun s => ?_⟩
  · obtain ⟨n, place⟩ := Array.getElem?_of_mem (Array.mem_toList_iff.mp member)
    have moves := (labelled.known id n (labelled.first n id place)).1
    exact labelled.same.size ▸ Automaton.Graph.lt_size_of_hasMoves moves
  · exact (congrArg Automaton.State.dispatch (labelled.same.state s)).trans (nameable.unnamed s).dispatch

theorem Sound.entryNames_lt (sound : Sound g options i) (active : List StateId) :
    ∀ n ∈ (namedGraph g options i).entryNames active, n < (namedGraph g options i).nameCount := by
  intro n member
  unfold Graph.entryNames at member
  rw [mem_ascending] at member
  obtain ⟨s, _, known⟩ := List.mem_filterMap.mp member
  exact sound.labelled.name_lt known

theorem Sound.resumptionsWithin (sound : Sound g options i) :
    LiteralIndex.ResumptionsWithin (literalIndex g options i).resumptions (namedGraph g options i).nameCount := by
  unfold literalIndex
  dsimp only
  split
  · exact LiteralIndex.findResumptions_within sound.entryNames_lt
  · rw [LiteralIndex.markExtended_resumptions, (draft_drafted g options i).resumptions]
    exact fun entries member => absurd member (Array.not_mem_empty entries)

theorem Sound.resumesWithin (sound : Sound g options i) :
    (literalIndex g options i).ResumesWithin (namedGraph g options i).nameCount :=
  LiteralIndex.resumesWithin sound.resumptionsWithin

/-! ### One state after the other -/

/-- The tables have grown, and the cells of the states assembled so far are as before. -/
structure Grows (a b : Assembly) : Prop where
  entries : ∀ (n : Nat) (e : Entry), a.entries[n]? = some e → b.entries[n]? = some e
  dispatch : DispatchTable.Extends a.dispatch b.dispatch
  states : ∀ (j : Nat) (s : LexicalState), a.states[j]? = some s → b.states[j]? = some s
  candidates : ∀ j, j < a.states.length → ∀ c, b.literals.beginningWith j c = a.literals.beginningWith j c
  starts : ∀ j, j < a.states.length → ∀ k : Kind, b.literals.startStates[(j, k)]? = a.literals.startStates[(j, k)]?

/-- The tables hold a lexical state with its entries from `offset` on. -/
structure Placed (g : Grammar) (options : GenerationOptions) (i offset : Nat) (update : LiteralIndex.TableUpdate)
    (a : Assembly) : Prop where
  state : ∃ s, a.states[i]? = some s ∧ StateOf g options i offset update s
  entries : ∀ (n : Nat) (e : Entry), (update.graph.entries offset)[n]? = some e → a.entries[offset + n]? = some e
  candidates : ∀ c, a.literals.beginningWith i c = update.tables.beginningWith i c
  starts : ∀ k : Kind, a.literals.startStates[(i, k)]? = update.tables.startStates[(i, k)]?
  moved : LiteralIndex.Moved i offset (ownTables g options i) update
  graph : ∃ table, DispatchTable.Extends ((namedGraph g options i).dispatchAll table).2 a.dispatch ∧
    LiteralIndex.Registers i offset ((namedGraph g options i).dispatchAll table).1 update

theorem Placed.grows {offset : Nat} {update : LiteralIndex.TableUpdate} (placed : Placed g options i offset update a)
    (grows : Grows a b) : Placed g options i offset update b := by
  obtain ⟨s, present, isState⟩ := placed.state
  obtain ⟨table, extends_, registers⟩ := placed.graph
  have inside := (List.getElem?_eq_some_iff.mp present).1
  exact
    { state := ⟨s, grows.states i s present, isState⟩
      entries := fun n e known => grows.entries _ e (placed.entries n e known)
      candidates := fun c => (grows.candidates i inside c).trans (placed.candidates c)
      starts := fun k => (grows.starts i inside k).trans (placed.starts k)
      moved := placed.moved
      graph := ⟨table, extends_.trans grows.dispatch, registers⟩ }

/-- The first `count` states have been assembled, and the others have nothing in the tables. -/
structure Progress (g : Grammar) (options : GenerationOptions) (count : Nat) (a : Assembly) : Prop where
  states : a.states.length = count
  placed : ∀ j, j < count → ∃ offset update, Placed g options j offset update a
  absent : ∀ j, count ≤ j → LiteralIndex.Absent j a.literals
  solid : LiteralIndex.Solid a.literals

theorem Progress.addState (progress : Progress g options i a) (sound : Sound g options i) (name : String) :
    Progress g options (i + 1) (addState g options a name i) := by
  obtain ⟨entries, dispatch, literals, s, states, isState⟩ := addState_tables g options i a name
  obtain ⟨extends_, same, _⟩ := Automaton.Graph.dispatchAll_ok a.dispatch sound.inside sound.clean
  have frame : (dispatched g options i a).1.named = (namedGraph g options i).named ∧
      (dispatched g options i a).1.groups = (namedGraph g options i).groups ∧
      (dispatched g options i a).1.initial = (namedGraph g options i).initial := Tokenizer.named_of_frame same.frame
  have elsewhere := LiteralIndex.register_elsewhere (literalIndex g options i) i a.entries.size (dispatched g options i a).1
    a.literals
  have grows : Grows a (Assembly.addState g options a name i) :=
    { entries := fun n e known => by
        rw [entries, Array.getElem?_append_left (Array.getElem?_eq_some_iff.mp known).1]
        exact known
      dispatch := by
        rw [dispatch]
        exact extends_
      states := fun j t known => by
        rw [states, List.getElem?_append_left (List.getElem?_eq_some_iff.mp known).1]
        exact known
      candidates := fun j before c => by
        rw [literals]
        exact elsewhere.candidates j (by have := progress.states; omega) c
      starts := fun j before k => by
        rw [literals]
        exact elsewhere.starts j (by have := progress.states; omega) k }
  have ordered : GroupsInOrder (dispatched g options i a).1 := by
    intro n c known
    have count : (dispatched g options i a).1.nameCount = (namedGraph g options i).nameCount := congrArg Array.size frame.1
    rw [count]
    exact sound.ordered n c (by rwa [frame.2.1] at known)
  have within : (literalIndex g options i).ResumesWithin (dispatched g options i a).1.nameCount := by
    rw [show (dispatched g options i a).1.nameCount = (namedGraph g options i).nameCount from congrArg Array.size frame.1]
    exact sound.resumesWithin
  have here : Placed g options i a.entries.size (registered g options i a) (Assembly.addState g options a name i) :=
    { state := ⟨s, by rw [states, ← progress.states]; simp, isState⟩
      entries := fun n e known => by
        rw [entries, Array.getElem?_append_right (Nat.le_add_right _ _), Nat.add_sub_cancel_left, List.getElem?_toArray]
        exact known
      candidates := fun c => by rw [literals]
      starts := fun k => by rw [literals]
      moved := LiteralIndex.register_moved frame.1 frame.2.1 (progress.absent i (Nat.le_refl i))
      graph := ⟨a.dispatch, by rw [dispatch]; exact .refl _,
        LiteralIndex.register_registers within ordered (progress.absent i (Nat.le_refl i))⟩ }
  refine ⟨by rw [states, List.length_append, progress.states]; rfl, fun j before => ?_, fun j beyond => ?_, ?_⟩
  · rcases Nat.lt_succ_iff_lt_or_eq.mp before with earlier | rfl
    · obtain ⟨offset, update, placed⟩ := progress.placed j earlier
      exact ⟨offset, update, placed.grows grows⟩
    · exact ⟨_, _, here⟩
  · have absent := progress.absent j (by omega)
    rw [literals]
    exact ⟨fun c => (elsewhere.candidates j (by omega) c).trans (absent.candidates c),
      fun k => (elsewhere.starts j (by omega) k).trans (absent.starts k)⟩
  · rw [literals]
    exact LiteralIndex.register_solid _ _ _ _ progress.solid

/-- Every lexical state of a grammar that passes the checks has its place in the tables. -/
theorem ofGrammar_progress (passes : g.Passes options) : Progress g options g.states.length (ofGrammar g options) := by
  have begun : Progress g options 0 { kinds := (KindTables.forGrammar g).endOfInput g } :=
    ⟨rfl, fun j before => absurd before (Nat.not_lt_zero j), fun j _ => LiteralIndex.absent_empty j,
      fun j c e member => by rw [(LiteralIndex.absent_empty j).candidates c] at member; cases member⟩
  exact ofGrammar_induction begun fun i a name progress => progress.addState (sound_of_passes passes i) name

/-- The states of the finished tokenizer are those assembled, with what is known of all of them together. -/
theorem tokenizer_state {s : LexicalState} (present : a.states[i]? = some s) :
    (tokenizer g options a).states[i]? = some { s with
      mayLoop := a.emptyMatching.search.looping.contains i
      reachedByMore := a.kinds.reachedByMore.contains i } := by
  unfold tokenizer
  rw [List.getElem?_map, List.getElem?_zipIdx, present, Nat.zero_add]
  rfl

theorem length_tokenizer_states (passes : g.Passes options) :
    (tokenizer g options (ofGrammar g options)).states.length = g.states.length := by
  unfold tokenizer
  rw [List.length_map, List.length_zipIdx, (ofGrammar_progress passes).states]

end TokenTables.Assembly
