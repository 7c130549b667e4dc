import Mathlib.Algebra.Order.BigOperators.Group.List
import Mathlib.Algebra.Order.Ring.Nat
import TokenTables.Proofs.Automaton.Gather
import TokenTables.Proofs.Automaton.Walk

/-!
Rounds of closing. A state absorbs what lies behind its epsilon moves; rounds go on while a list grows, and
there is room for only so much growth.
-/

namespace TokenTables.Automaton.Graph

open Kind (NoLater)

theorem merged_of_frame {g h : Graph} (frame : ({ h with states := #[] } : Graph) = { g with states := #[] }) :
    h.merged = g.merged := by
  injection frame

/-- The second graph has the states of the first, with other epsilon moves and kinds. -/
structure SameFrame (g h : Graph) : Prop where
  size : h.size = g.size
  frame : { h with states := #[] } = { g with states := #[] }
  state : ∀ s : Nat, h.state s = { g.state s with epsilon := (h.state s).epsilon, kind := (h.state s).kind }

theorem SameFrame.refl (g : Graph) : SameFrame g g := ⟨rfl, rfl, fun _ => rfl⟩

theorem SameFrame.trans {f g h : Graph} (one : SameFrame f g) (two : SameFrame g h) : SameFrame f h where
  size := two.size.trans one.size
  frame := two.frame.trans one.frame
  state s := by
    rw [two.state s, one.state s]

variable {g h : Graph} {id : Nat}

theorem SameFrame.moves (same : SameFrame g h) (s : Nat) : (h.state s).moves = (g.state s).moves := by
  rw [same.state s]

theorem SameFrame.next (same : SameFrame g h) (s : Nat) : (h.state s).next = (g.state s).next := by
  rw [same.state s]

theorem SameFrame.isClosed (same : SameFrame g h) (s : Nat) : (h.state s).isClosed = (g.state s).isClosed := by
  rw [same.state s]

theorem SameFrame.hasMoves (same : SameFrame g h) (s : Nat) : (h.state s).hasMoves = (g.state s).hasMoves := by
  rw [same.state s]
  rfl

theorem SameFrame.matters (same : SameFrame g h) (s : Nat) : (h.state s).matters = (g.state s).matters := by
  rw [same.state s]
  rfl

theorem SameFrame.open_iff (same : SameFrame g h) {s : Nat} : Open h s ↔ Open g s := by
  constructor
  · rintro ⟨inside, unclosed⟩
    exact ⟨same.size ▸ inside, (same.isClosed s).symm.trans unclosed⟩
  · rintro ⟨inside, unclosed⟩
    exact ⟨same.size.symm ▸ inside, (same.isClosed s).trans unclosed⟩

/-! ### One state -/

/-- The list and the kind that `id` takes over. -/
def absorbed (g : Graph) (id : Nat) : List Nat × Option Kind := g.gatherAll (g.state id)

/-- The list of `id` after it has absorbed what it leads to. -/
def absorbedList (g : Graph) (id : Nat) : List Nat :=
  if (g.state id).hasMoves && !(g.absorbed id).1.contains id then insertNat id (g.absorbed id).1
  else (g.absorbed id).1

theorem mem_absorbedList {x : Nat} :
    x ∈ g.absorbedList id ↔ x ∈ (g.absorbed id).1 ∨ ((g.state id).hasMoves = true ∧ x = id) := by
  unfold absorbedList
  by_cases moves : (g.state id).hasMoves = true
  · by_cases known : id ∈ (g.absorbed id).1
    · simp only [moves, List.contains_iff_mem.mpr known, Bool.not_true, Bool.and_false, Bool.false_eq_true,
        if_false, true_and]
      grind
    · simp only [moves, known, List.contains_eq_mem, decide_false, Bool.not_false, Bool.and_true, if_true,
        mem_insertNat, true_and]
      grind
  · simp [moves]

theorem absorb_fst : (g.absorb id).1 =
    g.alter id fun s => { s with epsilon := g.absorbedList id, kind := (g.absorbed id).2 } := rfl

theorem absorb_snd :
    (g.absorb id).2 = decide ((g.state id).epsilon.length < (g.absorbed id).1.length) := rfl

theorem absorb_state_same (inside : id < g.size) : (g.absorb id).1.state id =
    { g.state id with epsilon := g.absorbedList id, kind := (g.absorbed id).2 } := by
  rw [absorb_fst, state_alter_same inside]

theorem absorb_state_other {s : Nat} (different : s ≠ id) : (g.absorb id).1.state s = g.state s := by
  rw [absorb_fst, state_alter_other different]

theorem absorb_sameFrame : SameFrame g (g.absorb id).1 where
  size := by rw [absorb_fst, size_alter]
  frame := rfl
  state s := by
    rw [absorb_fst, state_alter]
    split
    · rename_i here
      rw [here.1]
    · rfl

theorem mem_absorbed_of_mem {x : Nat} (member : x ∈ (g.state id).epsilon) : x ∈ (g.absorbed id).1 :=
  gather_sub member

theorem absorb_more {s x : Nat} (member : x ∈ (g.state s).epsilon) : x ∈ ((g.absorb id).1.state s).epsilon := by
  by_cases same : s = id
  · subst same
    have inside := lt_size_of_mem_epsilon member
    rw [absorb_state_same inside]
    exact mem_absorbedList.mpr (.inl (mem_absorbed_of_mem member))
  · rwa [absorb_state_other same]

/-- The kinds of all states in the list are taken over. -/
theorem absorbed_visits (bound : ∀ s x : Nat, x ∈ (g.state s).epsilon → x < g.size) {q : Nat}
    (member : q ∈ (g.state id).epsilon) : NoLater (g.absorbed id).2 (g.state q).kind := by
  obtain ⟨j, place⟩ := List.getElem?_of_mem member
  have few := unvisited_le g.size (g.state id).epsilon
  exact gather_visits bound (by omega) (Nat.zero_le j) place

/-- A state that does not grow only takes in itself. -/
theorem absorbed_of_not_grew (stays : (g.absorb id).2 = false) :
    (g.absorbed id).1 = (g.state id).epsilon ∧ ∀ q ∈ (g.state id).epsilon,
      ∀ x ∈ (g.state q).epsilon, (g.state x).matters = true → x ∈ (g.state id).epsilon := by
  rw [absorb_snd, decide_eq_false_iff_not] at stays
  have le : (g.state id).epsilon.length ≤ (g.absorbed id).1.length := gather_length_le
  have same : (g.absorbed id).1.length = (g.state id).epsilon.length := by omega
  obtain ⟨fixed, behind⟩ := gather_stable same
  refine ⟨fixed, fun q member x mem matters => ?_⟩
  obtain ⟨j, here⟩ := List.getElem?_of_mem member
  exact behind (by omega) j q (Nat.zero_le _) here x mem matters

/-! ### Room for growth -/

/-- How much the lists of all states may still grow. -/
def room (g : Graph) : Nat := ((List.range g.size).map fun s => unvisited g.size (g.state s).epsilon).sum

theorem unvisited_mono {n : Nat} {xs ys : List Nat} (sub : ∀ x ∈ xs, x ∈ ys) :
    unvisited n ys ≤ unvisited n xs := by
  unfold unvisited
  refine List.Sublist.length_le (List.monotone_filter_right _ fun i => ?_)
  intro new
  simp only [Bool.not_eq_true', List.contains_eq_mem, decide_eq_false_iff_not] at new ⊢
  exact fun member => new (sub i member)

theorem room_le (g : Graph) : g.room ≤ g.size * g.size := by
  have bound : ∀ x ∈ (List.range g.size).map (fun s => unvisited g.size (g.state s).epsilon), x ≤ g.size := by
    intro x member
    obtain ⟨s, _, rfl⟩ := List.mem_map.mp member
    exact unvisited_le _ _
  have le := List.sum_le_card_nsmul _ _ bound
  rwa [List.length_map, List.length_range, nsmul_eq_mul, Nat.cast_id] at le

theorem absorb_room (bound : ∀ s x : Nat, x ∈ (g.state s).epsilon → x < g.size) (inside : id < g.size) :
    (g.absorb id).1.room ≤ g.room ∧ ((g.absorb id).2 = true → (g.absorb id).1.room < g.room) := by
  have each : ∀ s : Nat, unvisited g.size ((g.absorb id).1.state s).epsilon ≤ unvisited g.size (g.state s).epsilon :=
    fun s => unvisited_mono fun x member => absorb_more member
  have unfolded : (g.absorb id).1.room =
      ((List.range g.size).map fun s => unvisited g.size ((g.absorb id).1.state s).epsilon).sum := by
    unfold room
    rw [absorb_sameFrame.size]
  rw [unfolded]
  refine ⟨List.sum_le_sum fun s _ => each s, fun grew => ?_⟩
  refine List.sum_lt_sum _ _ (fun s _ => each s) ⟨id, List.mem_range.mpr inside, ?_⟩
  have grew : (g.state id).epsilon.length < (g.absorbed id).1.length := by
    rwa [absorb_snd, decide_eq_true_eq] at grew
  have least : unvisited g.size ((g.absorb id).1.state id).epsilon ≤ unvisited g.size (g.absorbed id).1 := by
    refine unvisited_mono fun x member => ?_
    rw [absorb_state_same inside]
    exact mem_absorbedList.mpr (.inl member)
  have spent := @gather_room g (g.state id).epsilon ((g.state id).epsilon.length + g.size) 0 g.size
    (g.state id).kind bound
  have same : (g.gather ((g.state id).epsilon.length + g.size) 0 (g.state id).epsilon (g.state id).kind).1 =
      (g.absorbed id).1 := rfl
  rw [same] at spent
  omega

end TokenTables.Automaton.Graph
