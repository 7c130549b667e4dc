import TokenTables.Automaton.Path
import TokenTables.Proofs.Ordered

/-!
Single changes to a graph: which states they leave alone, and what becomes of the one they are about.
-/

namespace TokenTables.Automaton

/-- The same state where its targets have other places. -/
def State.relocated (place : StateId → StateId) (s : State) : State :=
  { s with next := s.next.map place, epsilon := s.epsilon.map place }

section

variable {place : StateId → StateId} {s : State}

@[simp] theorem State.relocated_epsilon : (s.relocated place).epsilon = s.epsilon.map place := rfl
@[simp] theorem State.relocated_next : (s.relocated place).next = s.next.map place := rfl
@[simp] theorem State.relocated_kind : (s.relocated place).kind = s.kind := rfl
@[simp] theorem State.relocated_isClosed : (s.relocated place).isClosed = s.isClosed := rfl
@[simp] theorem State.relocated_hasMoves : (s.relocated place).hasMoves = s.hasMoves := rfl
@[simp] theorem State.relocated_matters : (s.relocated place).matters = s.matters := rfl

theorem State.relocated_congr {other : StateId → StateId} (edges : ∀ t ∈ s.epsilon, place t = other t)
    (move : ∀ t, s.next = some t → place t = other t) : s.relocated place = s.relocated other := by
  have next : s.next.map place = s.next.map other := Option.map_congr move
  unfold relocated
  rw [List.map_congr_left edges, next]

theorem State.relocated_id : s.relocated id = s := by
  unfold relocated
  rw [List.map_id, Option.map_id]
  rfl

end

namespace Graph

variable {g : Graph} {id other source target : Nat}

@[simp] theorem size_addState {s : State} : (g.addState s).size = g.size + 1 := by
  simp [addState, size]

@[simp] theorem state_addState {s : State} :
    (g.addState s).state id = if id = g.size then s else g.state id := by
  simp only [addState, state, size, Array.getD_eq_getD_getElem?, Array.getElem?_push]
  split <;> rfl

@[simp] theorem addState_initial {s : State} : (g.addState s).initial = g.initial := rfl
@[simp] theorem addState_merged {s : State} : (g.addState s).merged = g.merged := rfl
@[simp] theorem addState_named {s : State} : (g.addState s).named = g.named := rfl
@[simp] theorem addState_groups {s : State} : (g.addState s).groups = g.groups := rfl

@[simp] theorem size_alter {change : State → State} : (g.alter id change).size = g.size := by
  simp [alter, size]

theorem state_alter {change : State → State} :
    (g.alter id change).state other =
      if other = id ∧ id < g.size then change (g.state id) else g.state other := by
  simp only [alter, state, size, Array.getD_eq_getD_getElem?, Array.getElem?_modify]
  by_cases same : id = other
  · subst same
    by_cases inside : id < g.states.size
    · simp [inside]
    · simp [inside]
  · simp [same, Ne.symm same]

theorem state_alter_same {change : State → State} (inside : id < g.size) :
    (g.alter id change).state id = change (g.state id) := by
  simp [state_alter, inside]

theorem state_alter_other {change : State → State} (different : other ≠ id) :
    (g.alter id change).state other = g.state other := by
  simp [state_alter, different]

@[simp] theorem alter_initial {change : State → State} : (g.alter id change).initial = g.initial := rfl
@[simp] theorem alter_merged {change : State → State} : (g.alter id change).merged = g.merged := rfl
@[simp] theorem alter_named {change : State → State} : (g.alter id change).named = g.named := rfl
@[simp] theorem alter_groups {change : State → State} : (g.alter id change).groups = g.groups := rfl

@[simp] theorem size_linkEpsilon : (g.linkEpsilon source target).size = g.size := size_alter

theorem state_linkEpsilon_same (inside : source < g.size) :
    (g.linkEpsilon source target).state source =
      { g.state source with epsilon := insertNat target (g.state source).epsilon } :=
  state_alter_same inside

theorem state_linkEpsilon_other (different : other ≠ source) :
    (g.linkEpsilon source target).state other = g.state other :=
  state_alter_other different

@[simp] theorem linkEpsilon_initial : (g.linkEpsilon source target).initial = g.initial := rfl
@[simp] theorem linkEpsilon_merged : (g.linkEpsilon source target).merged = g.merged := rfl
@[simp] theorem linkEpsilon_named : (g.linkEpsilon source target).named = g.named := rfl
@[simp] theorem linkEpsilon_groups : (g.linkEpsilon source target).groups = g.groups := rfl

/-- States past the end are blank. -/
theorem state_of_size_le (beyond : g.size ≤ id) : g.state id = {} := by
  simp only [state, Array.getD_eq_getD_getElem?]
  rw [Array.getElem?_eq_none beyond]
  rfl

theorem lt_size_of_hasMoves (moves : (g.state id).hasMoves = true) : id < g.size := by
  rcases Nat.lt_or_ge id g.size with inside | beyond
  · exact inside
  · rw [state_of_size_le beyond] at moves
    exact absurd moves (by decide)

theorem lt_size_of_mem_epsilon (member : target ∈ (g.state id).epsilon) : id < g.size := by
  rcases Nat.lt_or_ge id g.size with inside | beyond
  · exact inside
  · rw [state_of_size_le beyond] at member
    cases member

end Graph

end TokenTables.Automaton
