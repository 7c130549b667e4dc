import Mathlib
import TokenTables.Proofs.Automaton.Dispatch
import TokenTables.Proofs.Automaton.Indexed

/-!
Dispatch methods of several graphs in one table. The graphs take their turns; what a method accepts stays as it is when
others follow, and outside ASCII a named state accepts what the method of the first state of its name accepts.
-/

namespace TokenTables.Automaton

/-- The table that graphs share once each of them has been dispatched in its turn. -/
def sharedTable (graphs : List Graph) : DispatchTable := graphs.foldl (fun t g => (g.dispatchAll t).2) {}

theorem sharedTable_append (earlier later : List Graph) :
    sharedTable (earlier ++ later) = later.foldl (fun t g => (g.dispatchAll t).2) (sharedTable earlier) :=
  List.foldl_append

theorem hasMethods_sharedTable (graphs : List Graph) : (sharedTable graphs).HasMethods :=
  List.foldlRecOn graphs _ (fun _ there => absurd there (Nat.not_lt_zero _)) fun _ before g _ => g.hasMethods_dispatchAll before

namespace Graph

variable {g : Graph} {t u : DispatchTable}

theorem Indexed.dispatchAll_ok (indexed : g.Indexed) (t : DispatchTable) :
    DispatchTable.Extends t (g.dispatchAll t).2 ∧ SameButDispatch g (g.dispatchAll t).1 ∧
      ∀ id ∈ g.named.toList, Dispatched (g.dispatchAll t).2 ((g.dispatchAll t).1.state id) := by
  refine Graph.dispatchAll_ok t (fun id member => ?_) indexed.clean
  obtain ⟨n, place⟩ := Array.getElem?_of_mem (Array.mem_toList_iff.mp member)
  exact indexed.inside n id place

/-- Only first states of names get methods. -/
theorem dispatchAll_other {s : Nat} (notFirst : s ∉ g.named.toList) (t : DispatchTable) :
    (g.dispatchAll t).1.state s = g.state s := by
  refine List.foldlRecOn (motive := fun made : Graph × DispatchTable => made.1.state s = g.state s) _ _ rfl
    fun made same id member => ?_
  have different : s ≠ id := fun here => notFirst (here ▸ member)
  unfold dispatchState
  dsimp only
  split
  · exact same
  · exact (state_alter_other different).trans same

/-- A state with what it needs accepts by its method what its moves accept. -/
theorem Dispatched.accepts_iff {s : State} (dispatched : Dispatched t s) {c : Char} (beyond : asciiEnd ≤ c.toNat)
    (basic : c.toNat ≤ Text.lastCode) : s.accepts c = true ↔ ∃ m, s.dispatch = some m ∧ t.accepts m c = .ok true := by
  have whole := dispatched.accepts basic [] none
  unfold MoveEntry.accepts at whole
  rw [if_neg (Nat.not_lt.mpr beyond)] at whole
  cases chosen : s.dispatch with
  | none =>
    rw [chosen] at whole
    simp [← Except.ok.inj whole]
  | some m =>
    have same : t.accepts m c = .ok (s.accepts c) := by rwa [chosen] at whole
    simp [same]

/-- The first state of a name moves as every state of that name does, and has the method that it needs. -/
theorem Indexed.first_dispatched (indexed : g.Indexed) (t : DispatchTable) {s : Nat} {n : EntryName}
    (known : ((g.dispatchAll t).1.state s).name = some n) :
    ∃ f : Nat, (g.dispatchAll t).1.named[n]? = some f ∧ (((g.dispatchAll t).1.state s).isAlias = false → f = s) ∧
      ((g.dispatchAll t).1.state f).moves = ((g.dispatchAll t).1.state s).moves ∧
      Dispatched (g.dispatchAll t).2 ((g.dispatchAll t).1.state f) := by
  obtain ⟨_, same, all⟩ := indexed.dispatchAll_ok t
  have named := congrArg Graph.named same.frame
  rw [same.state s] at known ⊢
  obtain ⟨f, place, moves, own⟩ := indexed.first s n known
  refine ⟨f, named ▸ place, own, ?_, all f (Array.mem_toList_iff.mpr (Array.mem_of_getElem? place))⟩
  rw [same.state f]
  exact moves

end Graph

open TokenTables.Automaton.Graph

theorem sharedTable_extends {earlier later : List Graph} (indexed : ∀ g ∈ later, g.Indexed) :
    DispatchTable.Extends (sharedTable earlier) (sharedTable (earlier ++ later)) := by
  rw [sharedTable_append]
  exact List.foldlRecOn later _ (.refl _) fun t before g member => before.trans ((indexed g member).dispatchAll_ok t).1

/-- Outside ASCII the moves of a named state agree with the method of the first state of its name, which is the state
itself unless it is an alias, in the table that all graphs share in the end. No move leaves the plane, and methods accept
what they accepted before later graphs. -/
theorem dispatch_agrees (earlier : List Graph) (g : Graph) (later : List Graph)
    (prepared : ∀ p ∈ earlier ++ g :: later, Prepared p) :
    let dispatched := (g.dispatchAll (sharedTable earlier)).1
    let table := sharedTable (earlier ++ g :: later)
    (∀ (s : StateId) (n : EntryName), (dispatched.state s).name = some n →
      ∃ first, dispatched.named[n]? = some first ∧ ((dispatched.state s).isAlias = false → first = s) ∧
        ∀ c : Char, asciiEnd ≤ c.toNat → c.toNat ≤ Text.lastCode →
          ((dispatched.state s).accepts c = true ↔
            ∃ m, (dispatched.state first).dispatch = some m ∧ table.accepts m c = .ok true)) ∧
    (∀ (s : StateId) (c : Char), (dispatched.state s).accepts c = true → c.toNat ≤ Text.lastCode) ∧
    ∀ m < (sharedTable (earlier ++ [g])).methods.size, ∀ c : Char,
      table.accepts m c = (sharedTable (earlier ++ [g])).accepts m c := by
  dsimp only
  have indexed := (prepared g (by simp)).indexed
  have whole : sharedTable (earlier ++ g :: later) = sharedTable ((earlier ++ [g]) ++ later) := by simp
  have turn : sharedTable (earlier ++ [g]) = (g.dispatchAll (sharedTable earlier)).2 := sharedTable_append earlier [g]
  have ext : DispatchTable.Extends (sharedTable (earlier ++ [g])) (sharedTable ((earlier ++ [g]) ++ later)) :=
    sharedTable_extends fun p member => (prepared p (by simp [member])).indexed
  rw [whole]
  refine ⟨fun s n known => ?_, fun s c accepts => ?_, fun m there c => ?_⟩
  · obtain ⟨f, place, own, moves, dispatched⟩ := indexed.first_dispatched _ known
    refine ⟨f, place, own, fun c beyond basic => ?_⟩
    rw [State.accepts, ← moves]
    rw [← turn] at dispatched
    exact (dispatched.extends ext).accepts_iff beyond basic
  · rw [(indexed.dispatchAll_ok _).2.1.state s] at accepts
    exact (indexed.inPlane s).code_le accepts
  · exact (hasMethods_sharedTable _ m there).accepts_extends ext c

/-! ### Aliases -/

/-- Two rules for one text outside ASCII. -/
def twins : Graph :=
  let settings : BuildSettings := ⟨[], false, false⟩
  let begun := ({} : Graph).withInitial.1
  let first := (begun.addRule settings 0 1 (.literal .unknown "é")).graph
  let second := (first.addRule settings 0 1 (.literal .unknown "é")).graph
  (second.completeAll .plain).nameAll.1

theorem prepared_twins : Prepared twins :=
  (((Prepared.empty.initial.addRule _ 0 1 _).addRule _ 0 1 _).completeAll .plain).nameAll

theorem twins_named : twins.named = #[1] ∧ (twins.state 3).name = some 0 ∧ (twins.state 3).isAlias = true ∧
    (twins.state 3).accepts 'é' = true := by
  cbv

theorem twins_dispatched (t : DispatchTable) : (twins.dispatchAll t).1.state 3 = twins.state 3 :=
  dispatchAll_other (by rw [twins_named.1]; decide) t

/-- The second of two equal states is named, but has no method of its own. -/
theorem alias_without_method :
    let dispatched := (twins.dispatchAll (sharedTable [])).1
    Prepared twins ∧ (dispatched.state 3).name = some 0 ∧
      ¬ ((dispatched.state 3).accepts 'é' = true ↔
        ∃ m, (dispatched.state 3).dispatch = some m ∧ (sharedTable [twins]).accepts m 'é' = .ok true) := by
  obtain ⟨_, name, _, accepts⟩ := twins_named
  dsimp only
  rw [twins_dispatched]
  refine ⟨prepared_twins, name, fun agree => ?_⟩
  obtain ⟨m, chosen, _⟩ := agree.mp accepts
  rw [prepared_twins.indexed.clean 3] at chosen
  cases chosen

/-- The method of the first state serves the second as well, also after another graph. -/
theorem alias_dispatches : ∃ m, ((twins.dispatchAll (sharedTable [])).1.state 1).dispatch = some m ∧
    (sharedTable [twins, twins]).accepts m 'é' = .ok true := by
  obtain ⟨agree, -, -⟩ := dispatch_agrees [] twins [twins] (by simp [prepared_twins])
  obtain ⟨named, name, -, accepts⟩ := twins_named
  obtain ⟨first, place, -, same⟩ := agree 3 0 (by rw [twins_dispatched, name])
  have isFirst : (twins.dispatchAll (sharedTable [])).1.named[0]? = some 1 := by
    rw [congrArg Graph.named (prepared_twins.indexed.dispatchAll_ok _).2.1.frame, named]
    rfl
  obtain rfl := Option.some.inj (isFirst.symm.trans place)
  exact (same 'é' (by decide) (by decide)).mp (by rw [twins_dispatched, accepts])

end TokenTables.Automaton
