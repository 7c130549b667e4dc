import TokenTables.Proofs.Automaton.Step
import TokenTables.Tokenizer.Scan

/-!
Running exported entries. The entries of a named graph report what the graph reports, and the active names are
those of its active states.
-/

namespace TokenTables.Tokenizer

open Automaton (BeyondTable DispatchTable Entry EntryName Graph MoveEntry StateId)
open Automaton.Graph (Alike Dispatched Labelled SameButDispatch)
open Kind (IsBest)

/-! ### Reading in single entries -/

variable {t : Tokenizer} {c : Char}

/-- An entry by itself, and whether it accepts `c`. -/
structure Reads (t : Tokenizer) (c : Char) (name : EntryName) (e : MoveEntry) (accepts : Bool) : Prop where
  entry : t.entries[name]? = some (.single e)
  accepts : e.accepts t.dispatch c = .ok accepts

theorem mem_foldl_addNames {names next : List EntryName} {n : EntryName} :
    n ∈ next.foldl (fun names n => if names.contains n then names else names ++ [n]) names ↔ n ∈ names ∨ n ∈ next := by
  induction next generalizing names with
  | nil => simp
  | cons m rest ih =>
    rw [List.foldl_cons, ih]
    split
    · rename_i known
      rw [List.contains_iff_mem] at known
      grind
    · rw [List.mem_append, List.mem_singleton, List.mem_cons, or_assoc]

theorem nodup_foldl_addNames {names next : List EntryName} (distinct : names.Nodup) :
    (next.foldl (fun names n => if names.contains n then names else names ++ [n]) names).Nodup := by
  induction next generalizing names with
  | nil => exact distinct
  | cons m rest ih =>
    rw [List.foldl_cons]
    refine ih ?_
    split
    · exact distinct
    · rename_i new
      rw [List.contains_iff_mem] at new
      exact List.nodup_append.mpr ⟨distinct, List.nodup_singleton m, by grind⟩

theorem readIn_reads {name : EntryName} {e : MoveEntry} {accepts : Bool} (reads : Reads t c name e accepts)
    (reached : Option Kind × List EntryName) :
    t.readIn c reached name = .ok (if accepts then
      (Kind.better reached.1 e.kind,
        e.next.foldl (fun names n => if names.contains n then names else names ++ [n]) reached.2)
      else reached) := by
  unfold readIn
  rw [reads.entry]
  dsimp only
  rw [reads.accepts]
  cases accepts with
  | true => rfl
  | false => rfl

theorem foldlM_readIn {names : List EntryName} (all : ∀ name ∈ names, ∃ e accepts, Reads t c name e accepts)
    (reached : Option Kind × List EntryName) {P : Option Kind → Prop} (best : IsBest reached.1 P) (distinct : reached.2.Nodup) :
    ∃ kind next, names.foldlM (t.readIn c) reached = .ok (kind, next) ∧
      IsBest kind (fun k => P k ∨ ∃ name ∈ names, ∃ e, Reads t c name e true ∧ k = e.kind) ∧
      (∀ n, n ∈ next ↔ n ∈ reached.2 ∨ ∃ name ∈ names, ∃ e, Reads t c name e true ∧ n ∈ e.next) ∧ next.Nodup := by
  induction names generalizing reached P with
  | nil => exact ⟨reached.1, reached.2, rfl, best.congr fun k => by simp, fun n => by simp, distinct⟩
  | cons name rest ih =>
    obtain ⟨e, accepts, reads⟩ := all name List.mem_cons_self
    have unique : ∀ {e' : MoveEntry}, Reads t c name e' true → e' = e ∧ accepts = true := by
      intro e' other
      obtain rfl : e' = e := Entry.single.inj (Option.some.inj (other.entry.symm.trans reads.entry))
      exact ⟨rfl, Except.ok.inj (reads.accepts.symm.trans other.accepts)⟩
    have others := fun r member => all r (List.mem_cons_of_mem name member)
    rw [List.foldlM_cons, readIn_reads reads]
    cases accepts with
    | true =>
      obtain ⟨kind, next, result, kinds, members, nodup⟩ := ih others
        (Kind.better reached.1 e.kind,
          e.next.foldl (fun names n => if names.contains n then names else names ++ [n]) reached.2)
        best.better (nodup_foldl_addNames distinct)
      refine ⟨kind, next, result, kinds.congr fun k => ?_, fun n => ?_, nodup⟩
      · rw [List.exists_mem_cons_iff, or_assoc]
        refine or_congr_right (or_congr_left ⟨fun same => ⟨e, reads, same⟩, ?_⟩)
        rintro ⟨e', other, same⟩
        rw [same, (unique other).1]
      · rw [members, mem_foldl_addNames, List.exists_mem_cons_iff, or_assoc]
        refine or_congr_right (or_congr_left ⟨fun member => ⟨e, reads, member⟩, ?_⟩)
        rintro ⟨e', other, member⟩
        rwa [(unique other).1] at member
    | false =>
      have never : ∀ {Q : MoveEntry → Prop}, ¬ ∃ e', Reads t c name e' true ∧ Q e' := by
        rintro Q ⟨e', other, _⟩
        cases (unique other).2
      obtain ⟨kind, next, result, kinds, members, nodup⟩ := ih others reached best distinct
      refine ⟨kind, next, result, kinds.congr fun k => ?_, fun n => ?_, nodup⟩
      · rw [List.exists_mem_cons_iff, or_iff_right never]
      · rw [members, List.exists_mem_cons_iff, or_iff_right never]

/-- Reading a character in entries whose dispatch methods work. -/
theorem read_ok {names : List EntryName} (all : ∀ name ∈ names, ∃ e accepts, Reads t c name e accepts) :
    ∃ kind next, t.read c names = .ok (kind, next) ∧
      IsBest kind (fun k => ∃ name ∈ names, ∃ e, Reads t c name e true ∧ k = e.kind) ∧
      (∀ n, n ∈ next ↔ ∃ name ∈ names, ∃ e, Reads t c name e true ∧ n ∈ e.next) ∧ next.Nodup := by
  obtain ⟨kind, next, result, kinds, members, nodup⟩ :=
    foldlM_readIn all (none, []) (.single none) List.nodup_nil
  refine ⟨kind, next, result, kinds.congr fun k => by simp, fun n => by rw [members]; simp, nodup⟩

/-! ### Entries of a graph -/

/-- The table has these entries from `offset` on. -/
def HasEntries (t : Tokenizer) (offset : Nat) (entries : List Entry) : Prop :=
  ∀ (i : Nat) (e : Entry), entries[i]? = some e → t.entries[offset + i]? = some e

/-- The table has the entries of a graph that was named and then dispatched. -/
structure Exports (t : Tokenizer) (offset : Nat) (closed named g : Graph) : Prop where
  labelled : Labelled closed named
  same : SameButDispatch named g
  entries : HasEntries t offset (g.entries offset)
  dispatched : ∀ id ∈ g.named.toList, Dispatched t.dispatch (g.state id)

variable {offset : Nat} {closed named g : Graph}

theorem named_of_frame {g h : Graph} (frame : ({ h with states := #[] } : Graph) = { g with states := #[] }) :
    h.named = g.named ∧ h.groups = g.groups ∧ h.initial = g.initial := by
  injection frame with _ initial _ named groups
  exact ⟨named, groups, initial⟩

theorem Exports.listAfter (exports : Exports t offset closed named g) (s : Nat) : g.listAfter s = closed.listAfter s := by
  rw [← exports.labelled.same.listAfter]
  unfold Graph.listAfter
  rw [exports.same.state s]
  cases (named.state s).next with
  | none => rfl
  | some n =>
    dsimp only
    rw [exports.same.state n]

theorem Exports.name (exports : Exports t offset closed named g) (s : Nat) :
    (g.state s).name = (named.state s).name := by
  rw [exports.same.state s]

theorem Exports.moves (exports : Exports t offset closed named g) (s : Nat) :
    (g.state s).moves = (closed.state s).moves := by
  rw [exports.same.state s, exports.labelled.same.state s]

theorem Exports.reported (exports : Exports t offset closed named g) {s : Nat} {n : EntryName}
    (known : (g.state s).name = some n) : (g.state s).reported = closed.kindAfter s := by
  rw [exports.name] at known
  rw [exports.same.state s]
  exact (exports.labelled.known s n known).2.1

theorem entry_eq (r : StateId) : g.entry offset r = .single
    ⟨(g.state r).moves, (g.entryNames (g.listAfter r)).map (· + offset), (g.state r).reported,
      (g.state r).dispatch⟩ := by
  unfold Graph.entry Graph.listAfter
  dsimp only
  cases (g.state r).next with
  | none => rfl
  | some n => rfl

theorem entries_single {n : EntryName} {r : StateId} (listed : g.named[n]? = some r) :
    (g.entries offset)[n]? = some (g.entry offset r) := by
  have lower : n < (g.named.toList.map (g.entry offset)).length := by
    rw [List.length_map, Array.length_toList]
    exact (Array.getElem?_eq_some_iff.mp listed).1
  unfold Graph.entries
  rw [List.getElem?_append_left lower, List.getElem?_map, Array.getElem?_toList, listed]
  rfl

theorem entries_group {i : Nat} {group : Automaton.NameGroup} (place : g.groups[i]? = some group) :
    (g.entries offset)[g.nameCount + i]? = some (.group (group.members.map (· + offset))) := by
  have length : (g.named.toList.map (g.entry offset)).length = g.nameCount := by
    rw [List.length_map, Array.length_toList]
    rfl
  unfold Graph.entries
  rw [List.getElem?_append_right (by rw [length]; exact Nat.le_add_right _ _), length, Nat.add_sub_cancel_left,
    List.getElem?_map, Array.getElem?_toList, place]
  rfl

/-- The entry of a named state reads as the state does. -/
theorem Exports.entry (exports : Exports t offset closed named g) {s : Nat} {n : EntryName}
    (known : (g.state s).name = some n) {c : Char} (basic : c.toNat ≤ Text.lastCode) :
    ∃ e, Reads t c (n + offset) e ((g.state s).accepts c) ∧ e.kind = (g.state s).reported ∧
      e.next = (g.entryNames (g.listAfter s)).map (· + offset) := by
  have found := known
  rw [exports.name] at found
  obtain ⟨_, _, r, place, alike⟩ := exports.labelled.known s n found
  have first : (g.state r).name = some n := by
    rw [exports.name]
    exact exports.labelled.first n r place
  have listed : g.named[n]? = some r := by
    rw [(named_of_frame exports.same.frame).1]
    exact place
  have moves : (g.state s).moves = (g.state r).moves := by
    rw [exports.moves, exports.moves, alike.moves]
  have entry := @entries_single offset g n r listed
  refine ⟨⟨(g.state r).moves, (g.entryNames (g.listAfter r)).map (· + offset), (g.state r).reported,
    (g.state r).dispatch⟩, ⟨?_, ?_⟩, ?_, ?_⟩
  · rw [Nat.add_comm]
    rw [entry_eq] at entry
    exact exports.entries n _ entry
  · have dispatched := exports.dispatched r (Array.mem_toList_iff.mpr (Array.mem_of_getElem? listed))
    have accepts := dispatched.accepts basic ((g.entryNames (g.listAfter r)).map (· + offset)) (g.state r).reported
    unfold Automaton.State.accepts at accepts ⊢
    rw [moves]
    exact accepts
  · rw [exports.reported first, exports.reported known, alike.kind]
  · rw [exports.listAfter, exports.listAfter, alike.list]

/-- The active names are those of the active states. -/
structure SameActive (offset : Nat) (g : Graph) (active : List StateId) (names : List EntryName) : Prop where
  named : ∀ s ∈ active, (g.state s).name.isSome = true
  names : names.Perm ((g.entryNames active).map (· + offset))

theorem SameActive.mem_iff {active : List StateId} {names : List EntryName} (same : SameActive offset g active names)
    {n : EntryName} : n ∈ names ↔ ∃ s ∈ active, ∃ m, (g.state s).name = some m ∧ n = m + offset := by
  rw [same.names.mem_iff, List.mem_map]
  unfold Graph.entryNames
  simp only [mem_ascending, List.mem_filterMap]
  constructor
  · rintro ⟨m, ⟨s, member, known⟩, rfl⟩
    exact ⟨s, member, m, known, rfl⟩
  · rintro ⟨s, member, m, known, rfl⟩
    exact ⟨m, ⟨s, member, known⟩, rfl⟩

theorem nodup_entryNames (active : List StateId) : ((g.entryNames active).map (· + offset)).Nodup := by
  refine List.Nodup.map (fun a b same => Nat.add_right_cancel same) ?_
  exact (ascending_ascending _).imp fun less => Nat.ne_of_lt less

/-- One character read in the table and in the graph. -/
theorem Exports.read (exports : Exports t offset closed named g) {active : List StateId} {names : List EntryName}
    (same : SameActive offset g active names) {c : Char} (basic : c.toNat ≤ Text.lastCode) :
    ∃ next, t.read c names = .ok ((g.step c active).1, next) ∧ SameActive offset g (g.step c active).2 next := by
  have entries : ∀ n ∈ names, ∃ e accepts, Reads t c n e accepts := by
    intro n member
    obtain ⟨s, _, m, known, rfl⟩ := same.mem_iff.mp member
    obtain ⟨e, reads, _⟩ := exports.entry known basic
    exact ⟨e, _, reads⟩
  -- An entry accepts just when an active state of its name does.
  have accepting : ∀ {Q : Option Kind → List EntryName → Prop},
      (∃ n ∈ names, ∃ e, Reads t c n e true ∧ Q e.kind e.next) ↔ ∃ s ∈ active, (g.state s).accepts c = true ∧
        Q (g.state s).reported ((g.entryNames (g.listAfter s)).map (· + offset)) := by
    intro Q
    constructor
    · rintro ⟨n, member, e, reads, holds⟩
      obtain ⟨s, inActive, m, known, rfl⟩ := same.mem_iff.mp member
      obtain ⟨e', reads', kind, next⟩ := exports.entry known basic
      obtain rfl : e' = e := Entry.single.inj (Option.some.inj (reads'.entry.symm.trans reads.entry))
      have accepts := Except.ok.inj (reads'.accepts.symm.trans reads.accepts)
      exact ⟨s, inActive, accepts, by rwa [← kind, ← next]⟩
    · rintro ⟨s, inActive, accepts, holds⟩
      obtain ⟨m, known⟩ := Option.isSome_iff_exists.mp (same.named s inActive)
      obtain ⟨e, reads, kind, next⟩ := exports.entry known basic
      rw [accepts] at reads
      exact ⟨m + offset, same.mem_iff.mpr ⟨s, inActive, m, known, rfl⟩, e, reads, by rwa [kind, next]⟩
  obtain ⟨kind, next, result, kinds, members, nodup⟩ := read_ok entries
  have sameKind : kind = (g.step c active).1 :=
    (kinds.congr fun k => accepting (Q := fun kind _ => some k = kind)).unique (Automaton.Graph.step_kind active)
  have reached : ∀ s ∈ (g.step c active).2, (g.state s).name.isSome = true := by
    intro s member
    obtain ⟨q, inActive, _, listed⟩ := Automaton.Graph.mem_step.mp member
    have known := same.named q inActive
    rw [exports.name] at known ⊢
    rw [exports.listAfter] at listed
    exact exports.labelled.after q known s listed
  refine ⟨next, by rw [result, sameKind], reached, ?_⟩
  rw [List.perm_ext_iff_of_nodup nodup (nodup_entryNames _)]
  intro n
  rw [members, accepting (Q := fun _ list => n ∈ list)]
  unfold Graph.entryNames
  simp only [List.mem_map, mem_ascending, List.mem_filterMap, Automaton.Graph.mem_step]
  constructor
  · rintro ⟨s, inActive, accepts, m, ⟨q, listed, known⟩, rfl⟩
    exact ⟨m, ⟨q, ⟨s, inActive, accepts, listed⟩, known⟩, rfl⟩
  · rintro ⟨m, ⟨q, ⟨s, inActive, accepts, listed⟩, known⟩, rfl⟩
    exact ⟨s, inActive, accepts, m, ⟨q, listed, known⟩, rfl⟩

/-! ### Whole texts -/

/-- The kind matched and the names active after each character of a text. -/
def trace (t : Tokenizer) : (active : List EntryName) → List Char →
    Except BeyondTable (List (Option Kind × List EntryName))
  | _, [] => .ok []
  | active, c :: rest => do
    let reached ← t.read c active
    let more ← t.trace reached.2 rest
    return reached :: more

/-- The names active before the first character. -/
def opening (t : Tokenizer) (name : Option EntryName) : List EntryName :=
  match name with
  | some n => t.expand n
  | none => []

/-- A name of the graph opens the names that it stands for. -/
theorem Exports.opens (exports : Exports t offset closed named g) {name : Option EntryName} {members : List EntryName}
    (stands : named.StandsFor name members) : t.opening (name.map (· + offset)) = members.map (· + offset) := by
  have frame := named_of_frame exports.same.frame
  unfold Graph.StandsFor at stands
  unfold Tokenizer.opening Tokenizer.expand
  cases name with
  | none =>
    dsimp only at stands
    rw [stands]
    rfl
  | some n =>
    dsimp only [Option.map_some] at stands ⊢
    rcases stands with ⟨rfl, inside⟩ | ⟨i, place, rfl⟩
    · obtain ⟨r, place⟩ : ∃ r, g.named[n]? = some r := by
        rw [frame.1]
        exact ⟨_, Array.getElem?_eq_getElem inside⟩
      have entry := exports.entries n _ (entries_single place)
      rw [Nat.add_comm, entry, entry_eq, List.map_singleton, Nat.add_comm]
    · rw [← frame.2.1] at place
      have entry := exports.entries _ _ (entries_group place)
      have count : g.nameCount = named.nameCount := congrArg Array.size frame.1
      rw [count] at entry
      rw [Nat.add_comm _ offset, entry]

theorem Exports.opening (exports : Exports t offset closed named g) {name : Option EntryName}
    (stands : named.StandsFor name (named.entryNames closed.openingStates)) :
    SameActive offset g closed.openingStates (t.opening (name.map (· + offset))) := by
  have sameNames : g.entryNames closed.openingStates = named.entryNames closed.openingStates := by
    unfold Graph.entryNames
    simp only [exports.name]
  refine ⟨fun s member => ?_, ?_⟩
  · rw [exports.name]
    exact exports.labelled.opening s member
  · rw [sameNames, exports.opens stands]

/-- A text read in the table and in the graph: the same kinds, and the names of the same states. -/
theorem Exports.trace (exports : Exports t offset closed named g) {active : List StateId} {names : List EntryName}
    (same : SameActive offset g active names) {text : List Char} (basic : ∀ c ∈ text, c.toNat ≤ Text.lastCode) :
    ∃ steps, t.trace names text = .ok steps ∧ List.Forall₂ (fun step reached =>
      step.1 = reached.1 ∧ step.2.Perm ((named.entryNames reached.2).map (· + offset))) steps (named.trace active text) := by
  induction text generalizing active names with
  | nil => exact ⟨[], rfl, .nil⟩
  | cons c rest ih =>
    obtain ⟨next, read, reached⟩ := exports.read same (basic c List.mem_cons_self)
    obtain ⟨steps, result, agree⟩ := ih reached fun d member => basic d (List.mem_cons_of_mem _ member)
    rw [exports.same.step] at read reached agree
    refine ⟨((named.step c active).1, next) :: steps, ?_, .cons ⟨rfl, ?_⟩ agree⟩
    · unfold Tokenizer.trace
      rw [read]
      show (do
        let more ← t.trace next rest
        return ((named.step c active).1, next) :: more) = _
      rw [result]
      rfl
    · have names := reached.names
      unfold Graph.entryNames at names ⊢
      simpa only [exports.name] using names

theorem hasEntries_of_append {t : Tokenizer} {before entries behind : List Entry}
    (whole : t.entries = (before ++ entries ++ behind).toArray) : HasEntries t before.length entries := by
  intro i e place
  have inside := (List.getElem?_eq_some_iff.mp place).1
  rw [whole, List.getElem?_toArray, List.append_assoc, List.getElem?_append_right (Nat.le_add_right _ _),
    Nat.add_sub_cancel_left, List.getElem?_append_left inside]
  exact place

/-- A graph of rules that has been closed, named and dispatched. -/
theorem exports_of_closed {built : Graph} {sem : Automaton.Graph.Standing} (fresh : Automaton.Graph.Fresh built)
    (completed : Automaton.Graph.Completed built sem closed) {table : DispatchTable} {t : Tokenizer}
    (entries : HasEntries t offset ((closed.nameAll.1.dispatchAll table).1.entries offset))
    (dispatch : DispatchTable.Extends (closed.nameAll.1.dispatchAll table).2 t.dispatch) :
    Exports t offset closed closed.nameAll.1 (closed.nameAll.1.dispatchAll table).1 := by
  have nameable := completed.nameable fresh
  have labelled := (Automaton.Graph.nameAll_labelled nameable).1
  have inside : ∀ id ∈ closed.nameAll.1.named.toList, id < closed.nameAll.1.size := by
    intro id member
    obtain ⟨n, place⟩ := Array.getElem?_of_mem (Array.mem_toList_iff.mp member)
    have moves := (labelled.known id n (labelled.first n id place)).1
    rw [labelled.same.size]
    exact Automaton.Graph.lt_size_of_hasMoves moves
  have clean : ∀ s : Nat, (closed.nameAll.1.state s).dispatch = none := by
    intro s
    rw [labelled.same.state s]
    exact (nameable.unnamed s).dispatch
  obtain ⟨_, same, all⟩ := Automaton.Graph.dispatchAll_ok table inside clean
  refine ⟨labelled, same, entries, fun id member => .extends dispatch (all id ?_)⟩
  rwa [← (named_of_frame same.frame).1]

/-- From these names on the table follows the graph on a text: it begins with the names of the opening states, and after
every character it reports what the graph reports and has the names of the active states. -/
structure Follows (t : Tokenizer) (offset : Nat) (names : List EntryName) (g : Graph) (text : List Char) : Prop where
  opening : names.Perm ((g.entryNames g.openingStates).map (· + offset))
  steps : ∃ steps, t.trace names text = .ok steps ∧ List.Forall₂ (fun step reached =>
    step.1 = reached.1 ∧ step.2.Perm ((g.entryNames reached.2).map (· + offset))) steps (g.trace g.openingStates text)

/-- The table with entries of a dispatched graph among others. -/
def withEntries (t : Tokenizer) (before : List Entry) (dispatched : Graph × DispatchTable) (behind : List Entry) : Tokenizer :=
  { t with
    entries := (before ++ dispatched.1.entries before.length ++ behind).toArray
    dispatch := dispatched.2 }

/-- The entries of a graph of rules that was closed, named and dispatched follow it, wherever they stand. -/
theorem exported_run_follows_graph {defs : Definitions} {unicodeInput : Bool} {rules : List Automaton.Rule}
    {built : Graph} (ok : Graph.ofRules defs unicodeInput rules = .ok built) (mode : Automaton.Closing)
    (table : DispatchTable) (t : Tokenizer) (before behind : List Entry) {text : List Char}
    (basic : ∀ c ∈ text, c.toNat ≤ Text.lastCode) :
    let named := (built.completeAll mode).nameAll
    let exported := t.withEntries before (named.1.dispatchAll table) behind
    Follows exported before.length (exported.opening (named.2.map (· + before.length))) named.1 text := by
  obtain ⟨pieces, ruled, _⟩ := Automaton.Graph.ofRules_ruled ok
  have fresh := ruled.fresh
  obtain ⟨sem, completed⟩ := Automaton.Graph.completeAll_completed fresh mode
  obtain ⟨labelled, _, stands⟩ := Automaton.Graph.nameAll_labelled (completed.nameable fresh)
  intro named exported
  have exports : Exports exported before.length (built.completeAll mode) named.1 (named.1.dispatchAll table).1 :=
    exports_of_closed fresh completed (hasEntries_of_append rfl) (.refl _)
  have opening := exports.opening stands
  have same : named.1.openingStates = (built.completeAll mode).openingStates := by
    unfold Graph.openingStates
    rw [labelled.same.initial]
    cases (built.completeAll mode).initial with
    | none => rfl
    | some initial => exact labelled.same.epsilon initial
  rw [← same] at opening
  refine ⟨?_, exports.trace opening basic⟩
  have listed := opening.names
  unfold Graph.entryNames at listed ⊢
  simpa only [exports.name] using listed

/-- One rule for the character a, read from a table with an entry before its own. -/
theorem exported_run_of_one_rule :
    ∃ built, Graph.ofRules [] false [⟨1, .literal .unknown "a", false⟩] = .ok built ∧
      let named := (built.completeAll .merging).nameAll
      let exported := (Tokenizer.mk [] #[] {} {} {} {} {} {} [] [] {} 0).withEntries [.group []]
        (named.1.dispatchAll {}) []
      Follows exported 1 (exported.opening (named.2.map (· + 1))) named.1 ['a', 'b'] := by
  have ok : Graph.ofRules [] false [⟨1, .literal .unknown "a", false⟩] =
      .ok (Automaton.Graph.mk #[{ epsilon := [1] }, { moves := { ascii := CodeSet.ofList [97] }, next := some 2 },
        { isFinal := true, kind := some 1 }] (some 0) [] #[] #[]) := by
    rfl
  exact ⟨_, ok, exported_run_follows_graph ok .merging {} _ [.group []] [] (by simp [Text.lastCode])⟩

end TokenTables.Tokenizer
