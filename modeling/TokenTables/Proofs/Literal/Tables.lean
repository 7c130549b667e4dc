import TokenTables.Literal.Candidates
import TokenTables.Proofs.Automaton.Naming

/-!
Literal tables. Registering the literals of a lexical state touches this state's cells alone, and where its entries
begin only moves the names that are written there.
-/

namespace TokenTables

open Automaton (EntryName Graph)
open Automaton.Graph (GroupsInOrder MoreGroups StandsFor)

theorem Automaton.Graph.StandsFor.moreGroups {g h : Graph} (more : MoreGroups g h) {name : Option EntryName} {members : List EntryName}
    (stands : StandsFor g name members) : StandsFor h name members := by
  have count : h.nameCount = g.nameCount := congrArg Array.size more.named
  cases name with
  | none => exact stands
  | some n =>
    rcases stands with ⟨single, small⟩ | ⟨i, place, named⟩
    · exact .inl ⟨single, by rwa [count]⟩
    · exact .inr ⟨i, more.groups i _ place, by rwa [count]⟩

/-! ### Orders of keys -/

instance : Std.LawfulEqCmp stateCharOrder where
  compare_self := Std.ReflCmp.compare_self
  eq_of_compare := by
    intro a b same
    rw [compareLex_eq_eq] at same
    exact Prod.ext (Std.LawfulEqOrd.eq_of_compare same.1) (Std.LawfulEqOrd.eq_of_compare same.2)

instance : Std.LawfulEqCmp stateKindOrder where
  compare_self := Std.ReflCmp.compare_self
  eq_of_compare := by
    intro a b same
    rw [compareLex_eq_eq] at same
    exact Prod.ext (Std.LawfulEqOrd.eq_of_compare same.1) (Std.LawfulEqOrd.eq_of_compare same.2)

instance : Std.TransCmp Resumption.order :=
  inferInstanceAs (Std.TransCmp (compareLex (compareOn fun r : Resumption => r.kind)
    (compareLex (compareOn fun r : Resumption => r.matchedAt) (compareOn fun r : Resumption => r.states))))

instance : Std.LawfulEqCmp Resumption.order where
  compare_self := Std.ReflCmp.compare_self
  eq_of_compare := by
    intro a b same
    unfold Resumption.order at same
    rw [compareLex_eq_eq, compareLex_eq_eq] at same
    obtain ⟨kind, place, states⟩ := same
    cases a
    cases b
    congr
    · exact Std.LawfulEqOrd.eq_of_compare kind
    · exact Std.LawfulEqOrd.eq_of_compare place
    · exact Std.LawfulEqOrd.eq_of_compare states

/-! ### Candidates -/

theorem Candidate.mem_place {e x : Candidate} {entries : List Candidate} :
    x ∈ e.place entries ↔ x = e ∨ x ∈ entries := by
  induction entries with
  | nil => simp [place]
  | cons first rest ih =>
    rw [place]
    split
    · simp
    · simp only [List.mem_cons, ih]
      grind

namespace CandidateTables

variable {t : CandidateTables} {i j : Nat} {e : Candidate} {c key : Char} {k l : Kind}

theorem beginningWith_addEntry : (t.addEntry i e key).beginningWith j c =
    if i = j ∧ key = c then e.place (t.beginningWith j c) else t.beginningWith j c := by
  unfold addEntry beginningWith
  rw [Std.TreeMap.getD_alter]
  by_cases here : i = j ∧ key = c
  · obtain ⟨rfl, rfl⟩ := here
    rw [if_pos Std.ReflCmp.compare_self, if_pos ⟨rfl, rfl⟩, Option.getD_some, Std.TreeMap.getD_eq_getD_getElem?]
  · have apart : stateCharOrder (i, key) (j, c) ≠ .eq := fun same =>
      here (Prod.mk.inj (Std.LawfulEqCmp.eq_of_compare same))
    rw [if_neg apart, if_neg here]

theorem startStates_addEntry : (t.addEntry i e key).startStates = t.startStates := rfl

theorem beginningWith_setStart {name : Option EntryName} :
    (t.setStart i k name).beginningWith j c = t.beginningWith j c := by
  cases name with
  | none => rfl
  | some n => rfl

theorem startStates_setStart {name : Option EntryName} : (t.setStart i k name).startStates[(j, l)]? =
    if i = j ∧ k = l then name else t.startStates[(j, l)]? := by
  have apart : ¬ (i = j ∧ k = l) → stateKindOrder (i, k) (j, l) ≠ .eq := fun differ same =>
    differ (Prod.mk.inj (Std.LawfulEqCmp.eq_of_compare same))
  cases name with
  | none =>
    unfold setStart
    rw [Std.TreeMap.getElem?_erase]
    by_cases here : i = j ∧ k = l
    · obtain ⟨rfl, rfl⟩ := here
      rw [if_pos Std.ReflCmp.compare_self, if_pos ⟨rfl, rfl⟩]
    · rw [if_neg (apart here), if_neg here]
  | some n =>
    unfold setStart
    rw [Std.TreeMap.getElem?_insert]
    by_cases here : i = j ∧ k = l
    · obtain ⟨rfl, rfl⟩ := here
      rw [if_pos Std.ReflCmp.compare_self, if_pos ⟨rfl, rfl⟩]
    · rw [if_neg (apart here), if_neg here]

end CandidateTables

namespace LiteralIndex

variable {t : LiteralIndex} {lexState offset : Nat} {u : TableUpdate} {l : Literal}

/-! ### Entering literals -/

/-- The entry is put under each of its keys. -/
def enterKeys (lexState : Nat) (tables : CandidateTables) (e : Candidate) : CandidateTables :=
  (entryKeys e).foldl (fun tables key => tables.addEntry lexState e key) tables

theorem startStates_enterKeys (tables : CandidateTables) (e : Candidate) :
    (enterKeys lexState tables e).startStates = tables.startStates :=
  List.foldlRecOn (motive := fun made : CandidateTables => made.startStates = tables.startStates) _ _ rfl
    fun _ same _ _ => same

theorem beginningWith_enterKeys_other {j : Nat} (apart : lexState ≠ j) (tables : CandidateTables) (e : Candidate)
    (c : Char) : (enterKeys lexState tables e).beginningWith j c = tables.beginningWith j c := by
  refine List.foldlRecOn (motive := fun made : CandidateTables => made.beginningWith j c = tables.beginningWith j c)
    _ _ rfl fun made same key _ => ?_
  rw [CandidateTables.beginningWith_addEntry, if_neg fun here => apart here.1, same]

theorem beginningWith_enterKeys_congr {tables others : CandidateTables}
    (same : ∀ c, others.beginningWith lexState c = tables.beginningWith lexState c) (e : Candidate) (c : Char) :
    (enterKeys lexState others e).beginningWith lexState c = (enterKeys lexState tables e).beginningWith lexState c := by
  unfold enterKeys
  induction entryKeys e generalizing tables others with
  | nil => exact same c
  | cons key rest ih =>
    rw [List.foldl_cons, List.foldl_cons]
    refine ih fun c => ?_
    rw [CandidateTables.beginningWith_addEntry, CandidateTables.beginningWith_addEntry, same]

/-- Entries are never empty. -/
def Solid (tables : CandidateTables) : Prop := ∀ i c, ∀ e ∈ tables.beginningWith i c, e.chars ≠ []

theorem solid_enterKeys {tables : CandidateTables} (solid : Solid tables) (e : Candidate) :
    Solid (enterKeys lexState tables e) := by
  unfold enterKeys
  cases chars : e.chars with
  | nil =>
    have none : entryKeys e = [] := by simp [entryKeys, chars]
    rw [none]
    exact solid
  | cons first rest =>
    refine List.foldlRecOn (motive := fun made : CandidateTables => Solid made) _ _ solid fun made before key _ => ?_
    intro i c x member
    rw [CandidateTables.beginningWith_addEntry] at member
    split at member
    · rcases Candidate.mem_place.mp member with rfl | old
      · simp [chars]
      · exact before i c x old
    · exact before i c x member

theorem enterLiteral_eq : t.enterLiteral lexState offset u l =
    { tables := (enterKeys lexState u.tables (t.entryOf l)).setStart lexState (t.entryOf l).kind
        ((t.startState (l.length - 1) l.kind u.graph).2.map (· + offset))
      graph := (t.startState (l.length - 1) l.kind u.graph).1
      reports := u.reports ++ (t.shadowingKind l).toList.map (shadowedReport l) } := rfl

/-- Cells of other lexical states stay as they are. -/
structure SameElsewhere (lexState : Nat) (tables after : CandidateTables) : Prop where
  candidates : ∀ j, lexState ≠ j → ∀ c, after.beginningWith j c = tables.beginningWith j c
  starts : ∀ j, lexState ≠ j → ∀ k : Kind, after.startStates[(j, k)]? = tables.startStates[(j, k)]?

theorem enterLiteral_elsewhere (t : LiteralIndex) (lexState offset : Nat) (u : TableUpdate) (l : Literal) :
    SameElsewhere lexState u.tables (t.enterLiteral lexState offset u l).tables where
  candidates j apart c := by
    rw [enterLiteral_eq, CandidateTables.beginningWith_setStart, beginningWith_enterKeys_other apart]
  starts j apart k := by
    rw [enterLiteral_eq, CandidateTables.startStates_setStart, if_neg fun here => apart here.1, startStates_enterKeys]

theorem register_elsewhere (t : LiteralIndex) (lexState offset : Nat) (g : Graph) (tables : CandidateTables) :
    SameElsewhere lexState tables (t.register lexState offset g tables).tables := by
  refine List.foldlRecOn (motive := fun u : TableUpdate => SameElsewhere lexState tables u.tables) _ _
    ⟨fun _ _ _ => rfl, fun _ _ _ => rfl⟩ fun u before l _ => ?_
  have step := enterLiteral_elsewhere t lexState offset u l
  exact ⟨fun j apart c => (step.candidates j apart c).trans (before.candidates j apart c),
    fun j apart k => (step.starts j apart k).trans (before.starts j apart k)⟩

theorem register_solid (t : LiteralIndex) (lexState offset : Nat) (g : Graph) {tables : CandidateTables}
    (solid : Solid tables) : Solid (t.register lexState offset g tables).tables := by
  refine List.foldlRecOn (motive := fun u : TableUpdate => Solid u.tables) _ _ solid fun u before l _ => ?_
  intro i c e member
  rw [enterLiteral_eq, CandidateTables.beginningWith_setStart] at member
  exact solid_enterKeys before _ i c e member

/-! ### Names to go on from -/

/-- The names to go on from, whatever the position and the kind, are names of single states. -/
def ResumesWithin (t : LiteralIndex) (count : Nat) : Prop :=
  ∀ pos k states, t.resumptionStates pos k = some states → ∀ n ∈ states, n < count

/-- A name for states of the graph. -/
def Startable (g : Graph) (name : EntryName) : Prop :=
  ∃ members, StandsFor g (some name) members ∧ Ascending members ∧ ∀ n ∈ members, n < g.nameCount

theorem Startable.moreGroups {g h : Graph} (more : MoreGroups g h) {name : EntryName} (startable : Startable g name) :
    Startable h name := by
  obtain ⟨members, stands, ordered, small⟩ := startable
  have count : h.nameCount = g.nameCount := congrArg Array.size more.named
  exact ⟨members, stands.moreGroups more, ordered, by rwa [count]⟩

theorem startState_ok (within : t.ResumesWithin u.graph.nameCount) (ordered : GroupsInOrder u.graph) (pos : Nat) (k : Kind) :
    MoreGroups u.graph (t.startState pos k u.graph).1 ∧ GroupsInOrder (t.startState pos k u.graph).1 ∧
      ∀ name, (t.startState pos k u.graph).2 = some name → Startable (t.startState pos k u.graph).1 name := by
  unfold startState
  split
  · exact ⟨.refl _, ordered, fun _ none => nomatch none⟩
  · split
    · exact ⟨.refl _, ordered, fun _ none => nomatch none⟩
    · rename_i states found
      have inside := within pos k states found
      obtain ⟨more, order, stands⟩ := Automaton.Graph.nameOfGroup_ok ordered inside
      refine ⟨more, order, fun name same =>
        ⟨ascending states, by rwa [same] at stands, ascending_ascending states, fun n member => ?_⟩⟩
      rw [show (u.graph.nameOfGroup states).1.nameCount = u.graph.nameCount from congrArg Array.size more.named]
      exact inside n (mem_ascending.mp member)

/-- Entering literals adds groups for the names to go on from. -/
structure Registers (lexState offset : Nat) (g : Graph) (u : TableUpdate) : Prop where
  more : MoreGroups g u.graph
  ordered : GroupsInOrder u.graph
  starts : ∀ (k : Kind) (name : EntryName), u.tables.startStates[(lexState, k)]? = some name →
    ∃ n, name = n + offset ∧ Startable u.graph n

theorem Registers.enter {g : Graph} (registers : Registers lexState offset g u) (within : t.ResumesWithin g.nameCount)
    (l : Literal) : Registers lexState offset g (t.enterLiteral lexState offset u l) := by
  have count : u.graph.nameCount = g.nameCount := congrArg Array.size registers.more.named
  obtain ⟨more, ordered, starts⟩ := startState_ok (u := u) (by rwa [count]) registers.ordered (l.length - 1) l.kind
  refine ⟨registers.more.trans more, ordered, fun k name known => ?_⟩
  rw [enterLiteral_eq, CandidateTables.startStates_setStart, startStates_enterKeys] at known
  split at known
  · obtain ⟨n, found, rfl⟩ := Option.map_eq_some_iff.mp known
    exact ⟨n, rfl, starts n found⟩
  · obtain ⟨n, same, startable⟩ := registers.starts k name known
    exact ⟨n, same, startable.moreGroups more⟩

/-- A lexical state that has nothing in the tables yet. -/
structure Absent (lexState : Nat) (tables : CandidateTables) : Prop where
  candidates : ∀ c, tables.beginningWith lexState c = []
  starts : ∀ k : Kind, tables.startStates[(lexState, k)]? = none

theorem absent_empty (lexState : Nat) : Absent lexState {} where
  candidates c := by simp [CandidateTables.beginningWith]
  starts k := by simp

theorem register_registers {g : Graph} (within : t.ResumesWithin g.nameCount) (ordered : GroupsInOrder g)
    {tables : CandidateTables} (absent : Absent lexState tables) :
    Registers lexState offset g (t.register lexState offset g tables) := by
  have begun : Registers lexState offset g { tables, graph := g } :=
    ⟨.refl g, ordered, fun k name known => by simp [absent.starts k] at known⟩
  exact List.foldlRecOn (motive := fun u : TableUpdate => Registers lexState offset g u) _ _ begun
    fun u before l _ => before.enter within l

/-! ### Moving a lexical state -/

/-- The second tables hold for the lexical state what the first ones hold, with its entries moved up. -/
structure Moved (lexState offset : Nat) (own shared : TableUpdate) : Prop where
  named : shared.graph.named = own.graph.named
  groups : shared.graph.groups = own.graph.groups
  candidates : ∀ c, shared.tables.beginningWith lexState c = own.tables.beginningWith lexState c
  starts : ∀ k : Kind, shared.tables.startStates[(lexState, k)]? = own.tables.startStates[(lexState, k)]?.map (· + offset)

theorem nameOfGroup_congr {g h : Graph} (named : h.named = g.named) (groups : h.groups = g.groups)
    (names : List EntryName) : (h.nameOfGroup names).2 = (g.nameOfGroup names).2 ∧
      (h.nameOfGroup names).1.named = (g.nameOfGroup names).1.named ∧
      (h.nameOfGroup names).1.groups = (g.nameOfGroup names).1.groups := by
  have count : h.nameCount = g.nameCount := congrArg Array.size named
  unfold Graph.nameOfGroup
  rw [groups, count]
  repeat' split
  all_goals simp [named, groups]

theorem startState_congr {g h : Graph} (named : h.named = g.named) (groups : h.groups = g.groups) (pos : Nat)
    (k : Kind) : (t.startState pos k h).2 = (t.startState pos k g).2 ∧
      (t.startState pos k h).1.named = (t.startState pos k g).1.named ∧
      (t.startState pos k h).1.groups = (t.startState pos k g).1.groups := by
  have count : h.nameCount = g.nameCount := congrArg Array.size named
  unfold startState
  rw [count]
  split
  · exact ⟨rfl, named, groups⟩
  · cases t.resumptionStates pos k with
    | none => exact ⟨rfl, named, groups⟩
    | some states => exact nameOfGroup_congr named groups states

theorem Moved.enter {own shared : TableUpdate} (moved : Moved lexState offset own shared) (l : Literal) :
    Moved lexState offset (t.enterLiteral lexState 0 own l) (t.enterLiteral lexState offset shared l) := by
  obtain ⟨same, named, groups⟩ := startState_congr (t := t) moved.named moved.groups (l.length - 1) l.kind
  refine ⟨named, groups, fun c => ?_, fun k => ?_⟩
  · rw [enterLiteral_eq, enterLiteral_eq, CandidateTables.beginningWith_setStart, CandidateTables.beginningWith_setStart]
    exact beginningWith_enterKeys_congr moved.candidates _ c
  · rw [enterLiteral_eq, enterLiteral_eq, CandidateTables.startStates_setStart, CandidateTables.startStates_setStart,
      startStates_enterKeys, startStates_enterKeys, same]
    split
    · rw [Option.map_map]
      rfl
    · exact moved.starts k

/-- What is registered for a lexical state does not depend on what the tables hold for others. -/
theorem register_moved {g h : Graph} (named : h.named = g.named) (groups : h.groups = g.groups)
    {tables : CandidateTables} (absent : Absent lexState tables) :
    Moved lexState offset (t.register lexState 0 g {}) (t.register lexState offset h tables) := by
  have all : ∀ (literals : List Literal) own shared, Moved lexState offset own shared →
      Moved lexState offset (literals.foldl (t.enterLiteral lexState 0) own)
        (literals.foldl (t.enterLiteral lexState offset) shared) := by
    intro literals
    induction literals with
    | nil => exact fun own shared moved => moved
    | cons l rest ih => exact fun own shared moved => ih _ _ (moved.enter l)
  refine all t.byKind _ _ ⟨named, groups, fun c => ?_, fun k => ?_⟩
  · exact (absent.candidates c).trans ((absent_empty lexState).candidates c).symm
  · rw [absent.starts k, (absent_empty lexState).starts k]
    rfl

/-! ### Resumptions -/

/-- Whatever is kept with a resumption, its states are names below the bound. -/
def ResumptionsWithin (all : Array Resumptions) (count : Nat) : Prop :=
  ∀ entries ∈ all, ∀ key ∈ entries, ∀ n ∈ key.states, n < count

theorem addResumption_within {g : Graph} {all : Array Resumptions} {count pos : Nat} {step : Progress}
    {active : List Automaton.StateId} (small : ∀ n ∈ g.entryNames active, n < count)
    (before : ResumptionsWithin all count) : ResumptionsWithin (addResumption g l all pos step active) count := by
  unfold addResumption
  split
  · exact before
  · intro entries member key inside
    obtain ⟨i, lower, rfl⟩ := Array.mem_iff_getElem.mp member
    rw [Array.getElem_modify] at inside
    rw [Array.size_modify] at lower
    split at inside
    · rw [Std.TreeMap.mem_alter] at inside
      split at inside
      · rename_i same
        obtain rfl := Std.LawfulEqCmp.eq_of_compare same
        exact small
      · exact before _ (Array.getElem_mem lower) key inside
    · exact before _ (Array.getElem_mem lower) key inside

theorem findResumptions_within {g : Graph} {wildcard : Option Kind}
    (small : ∀ active, ∀ n ∈ g.entryNames active, n < g.nameCount) :
    ResumptionsWithin (t.findResumptions g wildcard).resumptions g.nameCount := by
  have cleared : ResumptionsWithin (Array.replicate t.maxLength ({} : Resumptions)) g.nameCount := by
    intro entries member key inside
    obtain ⟨_, rfl⟩ := Array.mem_replicate.mp member
    exact absurd inside Std.TreeMap.not_mem_emptyc
  unfold findResumptions
  dsimp only
  split
  · exact cleared
  · refine List.foldlRecOn (motive := fun made : LiteralIndex => ResumptionsWithin made.resumptions g.nameCount) _ _
      cleared fun made before l _ => ?_
    refine List.foldlRecOn (motive := fun all : Array Resumptions => ResumptionsWithin all g.nameCount) _ _ before
      fun all holds step _ => addResumption_within (small _) holds

/-- Moving the names moves those of every resumption. -/
theorem mem_shiftStates {resumptions : Resumptions} {key : Resumption}
    (member : resumptions ∈ (t.shiftStates offset).resumptions) (inside : key ∈ resumptions) :
    ∃ before ∈ t.resumptions, ∃ old ∈ before, key = { old with states := old.states.map (· + offset) } := by
  obtain ⟨before, place, rfl⟩ := Array.mem_map.mp member
  refine ⟨before, place, ?_⟩
  rw [Std.TreeMap.foldl_eq_foldl_toList] at inside
  refine List.foldlRecOn (motive := fun moved : Resumptions => key ∈ moved →
    ∃ old ∈ before, key = { old with states := old.states.map (· + offset) }) _ _
    (fun none => absurd none Std.TreeMap.not_mem_emptyc) (fun moved earlier entry listed member => ?_) inside
  rcases Std.TreeMap.mem_insert.mp member with same | old
  · have kept : entry.1 ∈ before := by
      rw [Std.TreeMap.mem_iff_isSome_getElem?, Std.TreeMap.mem_toList_iff_getElem?_eq_some.mp listed]
      rfl
    exact ⟨entry.1, kept, (Std.LawfulEqCmp.eq_of_compare same).symm⟩
  · exact earlier old

theorem addChars_eq (l : Literal) (pos : Nat) (rest : List Char) (t : LiteralIndex) :
    ∃ cells, t.addChars l pos rest = { t with cells } := by
  induction rest generalizing t pos with
  | nil => exact ⟨t.cells, rfl⟩
  | cons c rest ih =>
    rw [addChars]
    exact ih _ _

/-- What a literal leaves of the index that it is inserted in. -/
structure Inserted (t : LiteralIndex) (l : Literal) (after : LiteralIndex) : Prop where
  options : after.options = t.options
  mixesCase : after.mixesCase = t.mixesCase
  progress : after.progress = t.progress
  resumptions : after.resumptions = t.resumptions
  maxLength : after.maxLength = max t.maxLength l.length
  literals : l.chars ≠ [] → after.literals = t.literals ++ [l]
  same : l.chars = [] → after = t

theorem insert_inserted (t : LiteralIndex) (l : Literal) : Inserted t l (t.insert l) := by
  unfold insert
  split
  · rename_i empty
    have none : l.chars = [] := List.isEmpty_iff.mp empty
    have length : l.length = 0 := by rw [Literal.length, none, List.length_nil]
    exact ⟨rfl, rfl, rfl, rfl, by rw [length, Nat.max_zero], fun some => absurd none some, fun _ => rfl⟩
  · rename_i empty
    have some : l.chars ≠ [] := mt List.isEmpty_iff.mpr empty
    obtain ⟨cells, same⟩ := addChars_eq l 0 l.chars { t with
      cells := t.cells ++ Array.replicate (l.length - t.cells.size) {}
      maxLength := max t.maxLength l.length
      lastKind := .some (max (t.lastKind.getD l.kind) l.kind) }
    dsimp only
    rw [same]
    exact ⟨rfl, rfl, rfl, rfl, rfl, fun _ => rfl, fun none => absurd none some⟩

theorem markExtended_resumptions (t : LiteralIndex) : t.markExtended.resumptions = t.resumptions := rfl

theorem resumesWithin {count : Nat} (within : ResumptionsWithin t.resumptions count) : t.ResumesWithin count := by
  intro pos k states found
  unfold resumptionStates resumptionsAt at found
  obtain ⟨⟨key, kinds⟩, chosen, rfl⟩ := Option.map_eq_some_iff.mp found
  have member := List.mem_of_find?_eq_some chosen
  rw [Std.TreeMap.mem_toList_iff_getElem?_eq_some] at member
  have inside : key ∈ t.resumptions.getD pos {} := Std.TreeMap.mem_iff_isSome_getElem?.mpr (by rw [member]; rfl)
  rw [Array.getD_eq_getD_getElem?] at inside
  cases place : t.resumptions[pos]? with
  | none =>
    rw [place, Option.getD_none] at inside
    exact absurd inside Std.TreeMap.not_mem_emptyc
  | some entries =>
    rw [place, Option.getD_some] at inside
    exact within entries (Array.mem_of_getElem? place) key inside

end LiteralIndex

end TokenTables
