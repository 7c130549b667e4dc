import TokenTables.Proofs.Tokenizer.Declared
import TokenTables.Proofs.Tokenizer.WideInput

/-!
Generated tables are closed. The entries of the lexical states lie one after the other and make up the whole table; what
is named from within a lexical state is among its entries, what can be active is a single entry, and all kinds are those
of regexes that the state declares.
-/

namespace TokenTables

open Automaton (DispatchTable Entry EntryName Graph MoveEntry StateId except_bind_ok)
open Automaton.Graph (GroupsInOrder MoreGroups StandsFor)

/-! ### Well-formed tables -/

/-- The name is that of an entry of the lexical state. -/
def LexicalState.Holds (s : LexicalState) (n : Nat) : Prop := s.firstEntry ≤ n ∧ n < s.firstEntry + s.entryCount

namespace Tokenizer

/-- The name is that of a single entry of the lexical state. -/
def HoldsSingle (t : Tokenizer) (s : LexicalState) (n : EntryName) : Prop :=
  s.Holds n ∧ ∃ e, t.entries[n]? = some (.single e)

/-- What stands in a single entry of the lexical state. -/
structure ClosedEntry (t : Tokenizer) (s : LexicalState) (declared : Kind → Prop) (e : MoveEntry) : Prop where
  next : ∀ n ∈ e.next, t.HoldsSingle s n
  dispatch : ∀ place, e.dispatch = some place → t.dispatch.HasMethod place
  kind : ∀ k, e.kind = some k → declared k

/-- Everything that is named from within a lexical state is among its entries, and its kinds are declared. -/
structure ClosedState (t : Tokenizer) (state : Nat) (s : LexicalState) (declared : Kind → Prop) : Prop where
  present : ∀ n, s.Holds n → ∃ e, t.entries[n]? = some e
  single : ∀ n e, s.Holds n → t.entries[n]? = some (.single e) → t.ClosedEntry s declared e
  group : ∀ n members, s.Holds n → t.entries[n]? = some (.group members) → ∀ m ∈ members, t.HoldsSingle s m
  initial : ∀ n, s.initial = some n → s.Holds n
  starts : ∀ (k : Kind) n, t.literals.startStates[(state, k)]? = some n → s.Holds n
  resumptions : ∀ resumptions ∈ s.literals.resumptions, ∀ key ∈ resumptions, ∀ n ∈ key.states, t.HoldsSingle s n
  candidates : ∀ c, ∀ e ∈ t.literals.beginningWith state c, declared e.kind
  emptyMatch : ∀ k, s.emptyMatch = some k → declared k
  wildcard : ∀ k, s.wildcard = some k → declared k

/-- The entries of the lexical states follow one another and are the whole table, every lexical state is closed, and so
are the dispatch methods. -/
structure WellFormed (t : Tokenizer) (g : Grammar) : Prop where
  first : ∀ (i : Nat) s, t.states[i]? = some s → s.firstEntry = ((t.states.map (·.entryCount)).take i).sum
  whole : t.entries.size = (t.states.map (·.entryCount)).sum
  states : ∀ (i : Nat) s, t.states[i]? = some s → t.ClosedState i s (g.Declares i)
  methods : t.dispatch.HasMethods

/-! ### What a closed state matches -/

section

variable {t : Tokenizer} {state : Nat} {s : LexicalState} {declared : Kind → Prop}

theorem ClosedState.readIn (closed : t.ClosedState state s declared) {c : Char} {reached after : Option Kind × List EntryName}
    {n : EntryName} (single : t.HoldsSingle s n) (kinds : ∀ k, reached.1 = some k → declared k)
    (names : ∀ m ∈ reached.2, t.HoldsSingle s m) (read : t.readIn c reached n = .ok after) :
    (∀ k, after.1 = some k → declared k) ∧ ∀ m ∈ after.2, t.HoldsSingle s m := by
  obtain ⟨inside, e, entry⟩ := single
  have entryClosed := closed.single n e inside entry
  unfold Tokenizer.readIn at read
  rw [entry] at read
  obtain ⟨accepts, _, read⟩ := except_bind_ok read
  split at read
  · obtain rfl := Except.ok.inj read
    refine ⟨fun k better => ?_, fun m member => ?_⟩
    · rcases Kind.better_cases better with old | new
      · exact kinds k old
      · exact entryClosed.kind k new
    · rcases mem_foldl_addNames.mp member with old | new
      · exact names m old
      · exact entryClosed.next m new
  · obtain rfl := Except.ok.inj read
    exact ⟨kinds, names⟩

theorem ClosedState.read (closed : t.ClosedState state s declared) {c : Char} {active : List EntryName}
    (single : ∀ n ∈ active, t.HoldsSingle s n) {after : Option Kind × List EntryName} (read : t.read c active = .ok after) :
    (∀ k, after.1 = some k → declared k) ∧ ∀ m ∈ after.2, t.HoldsSingle s m := by
  have all : ∀ (active : List EntryName) (reached : Option Kind × List EntryName), (∀ n ∈ active, t.HoldsSingle s n) →
      (∀ k, reached.1 = some k → declared k) → (∀ m ∈ reached.2, t.HoldsSingle s m) →
      active.foldlM (t.readIn c) reached = .ok after →
      (∀ k, after.1 = some k → declared k) ∧ ∀ m ∈ after.2, t.HoldsSingle s m := by
    intro active
    induction active with
    | nil =>
      intro reached _ kinds names done
      obtain rfl := Except.ok.inj done
      exact ⟨kinds, names⟩
    | cons n rest ih =>
      intro reached single kinds names ran
      obtain ⟨here, later⟩ := List.forall_mem_cons.mp single
      rw [List.foldlM_cons] at ran
      obtain ⟨next, readHere, ran⟩ := except_bind_ok ran
      obtain ⟨kindsNext, namesNext⟩ := closed.readIn here kinds names readHere
      exact ih next later kindsNext namesNext ran
  exact all active (none, []) single (fun k none => nomatch none) (fun m none => absurd none List.not_mem_nil) read

theorem ClosedState.run (closed : t.ClosedState state s declared) {active : List EntryName}
    (single : ∀ n ∈ active, t.HoldsSingle s n) {consumed : Nat} {last : Option Match} (known : ∀ m, last = some m → declared m.kind)
    {text : List Char} {m : Match} (ran : t.run consumed active last text = .ok (some m)) : declared m.kind := by
  induction text generalizing active consumed last with
  | nil => exact known m (Except.ok.inj ran)
  | cons c rest ih =>
    unfold Tokenizer.run at ran
    obtain ⟨⟨kind, next⟩, read, ran⟩ := except_bind_ok ran
    obtain ⟨kinds, names⟩ := closed.read single read
    have now : ∀ m, (kind.map fun k => (⟨k, consumed + 1⟩ : Match)).or last = some m → declared m.kind := by
      intro m found
      cases kind with
      | none => exact known m found
      | some k =>
        obtain rfl := Option.some.inj found
        exact kinds k rfl
    dsimp only at ran
    split at ran
    · exact now m (Except.ok.inj ran)
    · exact ih names now ran

/-- A name of the lexical state opens single entries of it. -/
theorem ClosedState.opening (closed : t.ClosedState state s declared) {name : Option EntryName}
    (inside : ∀ n, name = some n → s.Holds n) : ∀ m ∈ t.opening name, t.HoldsSingle s m := by
  cases name with
  | none => exact fun m none => absurd none List.not_mem_nil
  | some n =>
    have holds := inside n rfl
    obtain ⟨e, entry⟩ := closed.present n holds
    intro m member
    unfold Tokenizer.opening Tokenizer.expand at member
    dsimp only at member
    rw [entry] at member
    cases e with
    | single e =>
      obtain rfl := List.mem_singleton.mp member
      exact ⟨holds, e, entry⟩
    | group members => exact closed.group n members holds entry m member

/-- A closed state matches nothing but what it declares. -/
theorem ClosedState.longestMatch (closed : t.ClosedState state s declared) (present : t.states[state]? = some s)
    {text : List Char} {m : Match} (found : t.longestMatch state text = .ok (some m)) : declared m.kind := by
  have run : ∀ {name : Option EntryName} {consumed : Nat} {m : Match}, (∀ n, name = some n → s.Holds n) →
      t.runFrom name consumed text = .ok (some m) → declared m.kind := by
    intro name consumed m inside ran
    rw [runFrom_eq_run] at ran
    exact closed.run (closed.opening inside) (fun m none => by cases none) ran
  obtain ⟨again, matches_, there, offered, best⟩ := longestMatch_ok found
  obtain rfl := Option.some.inj (present.symm.trans there)
  rcases (offers_ok offered).2.2 m (Match.best_some best).1 with ⟨_, empty⟩ | ⟨_, _, wild⟩ | ran | ⟨c, e, entered, ms, ran, inside⟩
  · exact closed.emptyMatch _ empty
  · exact closed.wildcard _ wild
  · exact run closed.initial ran
  · unfold literalMatches at ran
    split at ran
    · obtain ⟨longer, ranOn, ran⟩ := except_bind_ok ran
      obtain rfl := Except.ok.inj ran
      rcases List.mem_cons.mp inside with rfl | beyond
      · exact closed.candidates c e entered
      · obtain rfl := Option.mem_toList.mp beyond
        exact run (closed.starts e.kind) ranOn
    · obtain rfl := Except.ok.inj ran
      cases inside

end

end Tokenizer

/-! ### Assembled tables -/

theorem Automaton.Graph.entries_cases {G : Graph} {offset n : Nat} {e : Entry} (known : (G.entries offset)[n]? = some e) :
    (∃ r, G.named[n]? = some r ∧ e = G.entry offset r) ∨ ∃ (j : Nat) (c : Automaton.NameGroup),
      n = G.nameCount + j ∧ G.groups[j]? = some c ∧ e = .group (c.members.map (· + offset)) := by
  have length : (G.named.toList.map (G.entry offset)).length = G.nameCount := by
    rw [List.length_map, Array.length_toList]
    rfl
  unfold Graph.entries at known
  rcases Nat.lt_or_ge n G.nameCount with single | beyond
  · rw [List.getElem?_append_left (by rwa [length]), List.getElem?_map, Array.getElem?_toList] at known
    obtain ⟨r, place, rfl⟩ := Option.map_eq_some_iff.mp known
    exact .inl ⟨r, place, rfl⟩
  · rw [List.getElem?_append_right (by rwa [length]), length, List.getElem?_map, Array.getElem?_toList] at known
    obtain ⟨c, place, rfl⟩ := Option.map_eq_some_iff.mp known
    exact .inr ⟨n - G.nameCount, c, by omega, place, rfl⟩

theorem Automaton.Graph.length_entries (G : Graph) (offset : Nat) :
    (G.entries offset).length = G.nameCount + G.groups.size := by
  unfold Graph.entries
  rw [List.length_append, List.length_map, List.length_map, Array.length_toList, Array.length_toList]
  rfl

namespace Assembly

variable {g : Grammar} {options : GenerationOptions} {i offset : Nat} {update : LiteralIndex.TableUpdate} {a : Assembly}
  {t : Tokenizer} {s : LexicalState}

/-- Names moved up by `offset`, of single states and of groups, lie in the slice of the state. -/
theorem StateOf.holds (isState : StateOf g options i offset update s) {n : Nat}
    (small : n < update.graph.nameCount + update.graph.groups.size) : s.Holds (n + offset) := by
  unfold LexicalState.Holds
  rw [isState.firstEntry, isState.entryCount, Automaton.Graph.length_entries]
  omega

theorem StateOf.holds_of_standsFor (isState : StateOf g options i offset update s) {n : Nat}
    {members : List EntryName} (stands : StandsFor update.graph (some n) members) : s.Holds (n + offset) := by
  apply isState.holds
  rcases stands with ⟨_, small⟩ | ⟨j, place, rfl⟩
  · exact Nat.lt_of_lt_of_le small (Nat.le_add_right _ _)
  · have := (Array.getElem?_eq_some_iff.mp place).1
    omega

theorem Placed.holdsSingle (placed : Placed g options i offset update a) (tables : HasTables a t)
    (isState : StateOf g options i offset update s) {n : Nat} (small : n < update.graph.nameCount) :
    t.HoldsSingle s (n + offset) := by
  refine ⟨isState.holds (by omega), ?_⟩
  have entry := placed.entries n _ (Tokenizer.entries_single (Array.getElem?_eq_getElem small))
  rw [Tokenizer.entry_eq] at entry
  exact ⟨_, by rw [tables.entries, Nat.add_comm]; exact entry⟩

/-- What the slice of the state holds is an entry of its graph. -/
theorem Placed.entry_of_holds (placed : Placed g options i offset update a) (tables : HasTables a t)
    (isState : StateOf g options i offset update s) {n : Nat} (holds : s.Holds n) :
    ∃ m e, n = offset + m ∧ (update.graph.entries offset)[m]? = some e ∧ t.entries[n]? = some e := by
  obtain ⟨low, high⟩ := holds
  rw [isState.firstEntry] at low high
  rw [isState.entryCount] at high
  have small : n - offset < (update.graph.entries offset).length := by omega
  have there := List.getElem?_eq_getElem small
  have moved := placed.entries _ _ there
  rw [Nat.add_sub_cancel' low] at moved
  exact ⟨n - offset, _, (Nat.add_sub_cancel' low).symm, there, by rw [tables.entries]; exact moved⟩

/-- The entry of a named state. -/
theorem Placed.closedEntry (placed : Placed g options i offset update a) (sound : Sound g options i)
    (passes : g.Passes options) (tables : HasTables a t) (isState : StateOf g options i offset update s) {m : Nat}
    {r : StateId} {e : MoveEntry} (place : update.graph.named[m]? = some r)
    (same : Entry.single e = update.graph.entry offset r) : t.ClosedEntry s (g.Declares i) e := by
  obtain ⟨exports, more⟩ := placed.exports sound tables
  rw [Tokenizer.entry_eq] at same
  obtain rfl := Entry.single.inj same
  have known : (update.graph.state r).name = some m := by
    rw [exports.name]
    exact exports.labelled.first m r place
  refine ⟨fun n member => ?_, fun method chosen => ?_, fun k reported => ?_⟩
  · obtain ⟨x, listed, rfl⟩ := List.mem_map.mp member
    obtain ⟨q, _, name⟩ := List.mem_filterMap.mp (mem_ascending.mp listed)
    rw [exports.name] at name
    exact placed.holdsSingle tables isState (exports.labelled.name_lt name)
  · rcases exports.dispatched r (Array.mem_toList_iff.mpr (Array.mem_of_getElem? place)) with
      ⟨none, _, _⟩ | ⟨own, _, isOwn, there, serves⟩
    · cases none.symm.trans chosen
    · obtain rfl := Option.some.inj (isOwn.symm.trans chosen)
      exact serves.hasMethod there
  · exact declares_of_kindAfter passes ((exports.reported known).symm.trans reported)

/-- The literals of a state keep names of single states to go on from, moved up with the entries. -/
theorem Sound.resumptions (sound : Sound g options i) {resumptions : Resumptions} {key : Resumption}
    (member : resumptions ∈ ((literalIndex g options i).shiftStates offset).resumptions) (inside : key ∈ resumptions) :
    ∀ n ∈ key.states, ∃ m, m < (namedGraph g options i).nameCount ∧ n = m + offset := by
  obtain ⟨before, place, old, kept, rfl⟩ := LiteralIndex.mem_shiftStates member inside
  intro n listed
  obtain ⟨m, own, rfl⟩ := List.mem_map.mp listed
  exact ⟨m, sound.resumptionsWithin before place old kept m own, rfl⟩

/-- A lexical state in its place is closed. -/
theorem Placed.closedState (placed : Placed g options i offset update a) (sound : Sound g options i)
    (passes : g.Passes options) (tables : HasTables a t) (isState : StateOf g options i offset update s) :
    t.ClosedState i s (g.Declares i) := by
  obtain ⟨exports, more⟩ := placed.exports sound tables
  obtain ⟨table, _, registers⟩ := placed.graph
  have count : update.graph.nameCount = (namedGraph g options i).nameCount := congrArg Array.size more.named
  refine ⟨fun n holds => ?_, fun n e holds entry => ?_, fun n members holds entry m member => ?_, fun n initial => ?_,
    fun k n start => ?_, fun resumptions member key inside n listed => ?_, fun c e entered => ?_, fun k empty => ?_,
    fun k wildcard => ?_⟩
  · obtain ⟨_, e, _, _, there⟩ := placed.entry_of_holds tables isState holds
    exact ⟨e, there⟩
  · obtain ⟨m, e', rfl, own, there⟩ := placed.entry_of_holds tables isState holds
    obtain rfl := Option.some.inj (there.symm.trans entry)
    rcases Automaton.Graph.entries_cases own with ⟨r, place, same⟩ | ⟨_, _, _, _, never⟩
    · exact placed.closedEntry sound passes tables isState place same
    · cases never
  · obtain ⟨x, e', rfl, own, there⟩ := placed.entry_of_holds tables isState holds
    obtain rfl := Option.some.inj (there.symm.trans entry)
    rcases Automaton.Graph.entries_cases own with ⟨r, _, never⟩ | ⟨j, c, _, place, same⟩
    · rw [Tokenizer.entry_eq] at never
      cases never
    · obtain rfl := Entry.group.inj same
      obtain ⟨y, listed, rfl⟩ := List.mem_map.mp member
      exact placed.holdsSingle tables isState ((registers.ordered j c place).2 y listed)
  · rw [isState.initial] at initial
    obtain ⟨first, named, rfl⟩ := Option.map_eq_some_iff.mp initial
    have stands := sound.opening.moreGroups more
    rw [named] at stands
    exact isState.holds_of_standsFor stands
  · rw [tables.literals, placed.starts] at start
    obtain ⟨m, rfl, members, stands, _, _⟩ := registers.starts k n start
    exact isState.holds_of_standsFor stands
  · rw [isState.literals] at member
    obtain ⟨m, small, rfl⟩ := sound.resumptions member inside n listed
    exact placed.holdsSingle tables isState (by rwa [count])
  · rw [tables.literals, placed.candidates, placed.moved.candidates] at entered
    obtain ⟨l, literal, rfl, _⟩ := (LiteralIndex.mem_register (LiteralIndex.absent_empty i)).mp entered
    exact declares_of_entry passes literal
  · rw [isState.emptyMatch] at empty
    exact declares_of_emptyKind passes empty
  · rw [isState.wildcard] at wildcard
    exact declares_of_wildcard wildcard

/-- The entries of the states assembled so far follow one another and are all there are. -/
structure Tiled (a : Assembly) : Prop where
  first : ∀ (i : Nat) s, a.states[i]? = some s → s.firstEntry = ((a.states.map (·.entryCount)).take i).sum
  whole : a.entries.size = (a.states.map (·.entryCount)).sum
  methods : a.dispatch.HasMethods

theorem Tiled.addState (tiled : Tiled a) (g : Grammar) (options : GenerationOptions) (name : String) (i : Nat) :
    Tiled (addState g options a name i) := by
  obtain ⟨entries, dispatch, _, s, states, isState⟩ := addState_tables g options i a name
  refine ⟨fun j t known => ?_, ?_, ?_⟩
  · rw [states] at known ⊢
    rw [List.map_append]
    rcases Nat.lt_or_ge j a.states.length with old | beyond
    · rw [List.getElem?_append_left old] at known
      rw [List.take_append_of_le_length (by rw [List.length_map]; exact old.le)]
      exact tiled.first j t known
    · rw [List.getElem?_append_right beyond] at known
      have last : j - a.states.length = 0 := by
        have := (List.getElem?_eq_some_iff.mp known).1
        rw [List.length_singleton] at this
        omega
      rw [last] at known
      obtain rfl := Option.some.inj known
      have here : j = (a.states.map (·.entryCount)).length := by
        rw [List.length_map]
        omega
      rw [here, List.take_left, isState.firstEntry, tiled.whole]
  · have count : (a.entries ++ ((registered g options i a).graph.entries a.entries.size).toArray).size =
        a.entries.size + s.entryCount := by
      simp [isState.entryCount]
    rw [entries, count, states, List.map_append, List.sum_append, ← tiled.whole, List.map_singleton, List.sum_singleton]
  · rw [dispatch]
    exact Automaton.Graph.hasMethods_dispatchAll _ tiled.methods

theorem ofGrammar_tiled (g : Grammar) (options : GenerationOptions) : Tiled (ofGrammar g options) := by
  have begun : Tiled { kinds := (KindTables.forGrammar g).endOfInput g } :=
    ⟨fun i s none => by simp at none, rfl, fun place none => absurd none (Nat.not_lt_zero place)⟩
  exact List.foldlRecOn (motive := Tiled) _ _ begun fun a before state _ => before.addState g options state.1 state.2

theorem tokenizer_entryCounts (a : Assembly) :
    (tokenizer g options a).states.map (·.entryCount) = a.states.map (·.entryCount) := by
  unfold tokenizer
  rw [List.map_map]
  conv_rhs => rw [← List.zipIdx_map_fst 0 a.states, List.map_map]
  rfl

end Assembly

/-- Generated tables are well-formed, and a lexical state matches only kinds of regexes that it declares and that are not
private. -/
theorem generated_wellFormed {g : Grammar} {options : GenerationOptions} {made : Generation}
    (generated : generate g options = .ok made) :
    made.tokenizer.WellFormed g ∧ ∀ state text m, made.tokenizer.longestMatch state text = .ok (some m) →
      g.Declares state m.kind := by
  obtain ⟨passes, tables⟩ := generate_ok generated
  have tiled := Assembly.ofGrammar_tiled g options
  have closed : ∀ (i : Nat) s, made.tokenizer.states[i]? = some s → made.tokenizer.ClosedState i s (g.Declares i) := by
    rw [tables]
    intro i s present
    have inside : i < g.states.length := by
      rw [← Assembly.length_tokenizer_states passes]
      exact (List.getElem?_eq_some_iff.mp present).1
    obtain ⟨offset, update, s', placed, there, isState⟩ := Assembly.tokenizer_placed passes inside
    obtain rfl := Option.some.inj (there.symm.trans present)
    exact placed.closedState (Assembly.sound_of_passes passes i) passes ⟨rfl, rfl, rfl⟩ isState
  refine ⟨⟨fun i s present => ?_, ?_, closed, ?_⟩, fun state text m found => ?_⟩
  · rw [tables] at present ⊢
    have inside : i < (Assembly.ofGrammar g options).states.length := by
      have := (List.getElem?_eq_some_iff.mp present).1
      rwa [Assembly.length_tokenizer_states passes, ← (Assembly.ofGrammar_progress passes).states] at this
    have original := List.getElem?_eq_getElem inside
    obtain rfl := Option.some.inj ((Assembly.tokenizer_state original).symm.trans present)
    rw [Assembly.tokenizer_entryCounts]
    exact (tiled.first i _ original :)
  · rw [tables, Assembly.tokenizer_entryCounts]
    exact tiled.whole
  · rw [tables]
    exact tiled.methods
  · obtain ⟨s, _, present, _, _⟩ := Tokenizer.longestMatch_ok found
    exact (closed state s present).longestMatch present found

/-- A keyword that words may go on from, and any characters in a second state. -/
def keywordsAndText : Grammar where
  states := ["CODE", "TEXT"]
  productions := [⟨.token, some ["CODE"], false,
    [⟨.regex ⟨1, some "IF", false, .literal .unknown "if"⟩, none, none, .unknown⟩,
     ⟨.regex ⟨2, none, false, .repetition .unknown (.charClass .unknown ⟨false, [.range 'a' 'z']⟩) 1 none⟩,
      none, none, .unknown⟩], .unknown⟩,
    ⟨.skip, some ["TEXT"], true, [⟨.regex ⟨3, none, false, .charClass .unknown ⟨true, []⟩⟩, none, none, .unknown⟩], .unknown⟩]

theorem keywordsAndText_wellFormed : ∃ made, generate keywordsAndText {} = .ok made ∧
    made.tokenizer.WellFormed keywordsAndText ∧ ∀ state text m,
      made.tokenizer.longestMatch state text = .ok (some m) → keywordsAndText.Declares state m.kind := by
  obtain ⟨made, generated⟩ : ∃ made, generate keywordsAndText {} = .ok made :=
    generate_of_passes (by decide) (by unfold Grammar.Passes; cbv)
  exact ⟨made, generated, generated_wellFormed generated⟩

end TokenTables
