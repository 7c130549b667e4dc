import Mathlib.Logic.Relation
import TokenTables.Automaton.EpsilonReach
import TokenTables.Proofs.Automaton.Graph

/-!
The depth-first walk over open states: it lists what can be reached through open states, and a state after
those behind it, unless they lead back to it.
-/

namespace TokenTables.Automaton.Graph

open Relation (ReflTransGen)

/-- A state of the graph that is not closed. -/
structure Open (g : Graph) (s : Nat) : Prop where
  inside : s < g.size
  unclosed : (g.state s).isClosed = false

/-- An epsilon move to an open state. -/
def OpenEdge (g : Graph) (s t : Nat) : Prop := t ∈ (g.state s).epsilon ∧ Open g t

/-- Epsilon moves through open states. -/
abbrev OpenPath (g : Graph) : Nat → Nat → Prop := ReflTransGen (OpenEdge g)

/-- In a list of states, the last one left first: the open states behind each were left before it or lead
back to it. -/
def LeftInOrder (g : Graph) : List Nat → Prop
  | [] => True
  | s :: earlier => (∀ t, OpenEdge g s t → t ∈ earlier ∨ OpenPath g t s) ∧ LeftInOrder g earlier

theorem LeftInOrder.suffix {g : Graph} {front back : List Nat} (order : LeftInOrder g (front ++ back)) :
    LeftInOrder g back := by
  induction front with
  | nil => exact order
  | cons s rest ih => exact ih order.2

/-- What a walk from `root` keeps to. States to leave lie on the way to everything above them. -/
structure Walking (g : Graph) (root : Nat) (todo : List WalkStep) (entered left : List Nat) : Prop where
  settled : ∀ s ∈ entered, s ∈ left ∨ WalkStep.leave s ∈ todo
  leftEntered : ∀ s ∈ left, s ∈ entered
  leaveEntered : ∀ s, WalkStep.leave s ∈ todo → s ∈ entered
  reached : ∀ s ∈ entered, Open g s ∧ OpenPath g root s
  ahead : ∀ s, WalkStep.enter s ∈ todo → Open g s → OpenPath g root s
  above : ∀ higher s lower, todo = higher ++ WalkStep.leave s :: lower →
    (∀ t, WalkStep.enter t ∈ higher → Open g t → OpenPath g s t) ∧
    (∀ t, WalkStep.leave t ∈ higher → OpenPath g s t) ∧
    ∀ t, OpenEdge g s t → t ∈ entered ∨ WalkStep.enter t ∈ higher
  behind : ∀ s ∈ left, ∀ t, OpenEdge g s t → t ∈ entered
  order : LeftInOrder g left

variable {g : Graph} {root : Nat}

theorem Walking.leave {s : Nat} {todo : List WalkStep} {entered left : List Nat}
    (walking : Walking g root (.leave s :: todo) entered left) :
    Walking g root todo entered (s :: left) := by
  have here := walking.above [] s todo rfl
  have edges : ∀ t, OpenEdge g s t → t ∈ entered := fun t edge =>
    (here.2.2 t edge).resolve_right (by simp)
  refine ⟨fun t member => ?_, fun t member => ?_, fun t member => ?_, walking.reached,
    fun t member => walking.ahead t (List.mem_cons_of_mem _ member), fun higher t lower split => ?_,
    fun t member u edge => ?_, ⟨fun t edge => ?_, walking.order⟩⟩
  · rcases walking.settled t member with old | pending
    · exact .inl (List.mem_cons_of_mem _ old)
    · rcases List.mem_cons.mp pending with same | later
      · obtain rfl := WalkStep.leave.inj same
        exact .inl List.mem_cons_self
      · exact .inr later
  · rcases List.mem_cons.mp member with rfl | old
    · exact walking.leaveEntered t List.mem_cons_self
    · exact walking.leftEntered t old
  · exact walking.leaveEntered t (List.mem_cons_of_mem _ member)
  · obtain ⟨enters, leaves, next⟩ := walking.above (.leave s :: higher) t lower (by rw [split]; rfl)
    refine ⟨fun u member => enters u (List.mem_cons_of_mem _ member),
      fun u member => leaves u (List.mem_cons_of_mem _ member), fun u edge => ?_⟩
    simpa using next u edge
  · rcases List.mem_cons.mp member with rfl | old
    · exact edges u edge
    · exact walking.behind t old u edge
  · rcases walking.settled t (edges t edge) with old | pending
    · exact .inl old
    · rcases List.mem_cons.mp pending with same | later
      · obtain rfl := WalkStep.leave.inj same
        exact .inr .refl
      · obtain ⟨higher, lower, rfl⟩ := List.append_of_mem later
        exact .inr ((walking.above (.leave s :: higher) t lower rfl).2.1 s List.mem_cons_self)

theorem Walking.skip {s : Nat} {todo : List WalkStep} {entered left : List Nat}
    (walking : Walking g root (.enter s :: todo) entered left) (stale : Open g s → s ∈ entered) :
    Walking g root todo entered left := by
  refine ⟨fun t member => ?_, walking.leftEntered,
    fun t member => walking.leaveEntered t (List.mem_cons_of_mem _ member), walking.reached,
    fun t member => walking.ahead t (List.mem_cons_of_mem _ member), fun higher t lower split => ?_,
    walking.behind, walking.order⟩
  · simpa using walking.settled t member
  · obtain ⟨enters, leaves, next⟩ := walking.above (.enter s :: higher) t lower (by rw [split]; rfl)
    refine ⟨fun u member => enters u (List.mem_cons_of_mem _ member),
      fun u member => leaves u (List.mem_cons_of_mem _ member), fun u edge => ?_⟩
    rcases next u edge with known | pending
    · exact .inl known
    · rcases List.mem_cons.mp pending with same | later
      · obtain rfl := WalkStep.enter.inj same
        exact .inl (stale edge.2)
      · exact .inr later

theorem leave_not_mem_enters {s : Nat} {targets : List Nat} : WalkStep.leave s ∉ targets.map WalkStep.enter := by
  simp

/-- Where a state to leave stands after the states to enter have been put in front. -/
theorem split_enters {targets : List Nat} {todo higher lower : List WalkStep} {s t : Nat}
    (split : targets.map WalkStep.enter ++ .leave s :: todo = higher ++ .leave t :: lower) :
    (t = s ∧ higher = targets.map .enter) ∨
      ∃ rest, higher = targets.map .enter ++ .leave s :: rest ∧ todo = rest ++ .leave t :: lower := by
  rcases List.append_eq_append_iff.mp split with ⟨more, first, second⟩ | ⟨more, first, second⟩
  · cases more with
    | nil =>
      obtain ⟨same, _⟩ := List.cons.inj second
      exact .inl ⟨(WalkStep.leave.inj same).symm, by rw [first, List.append_nil]⟩
    | cons step rest =>
      obtain ⟨rfl, same⟩ := List.cons.inj second
      exact .inr ⟨rest, first, same⟩
  · cases more with
    | nil =>
      obtain ⟨same, _⟩ := List.cons.inj second
      exact .inl ⟨WalkStep.leave.inj same, by rw [first, List.append_nil]⟩
    | cons step rest =>
      obtain ⟨rfl, _⟩ := List.cons.inj second
      have inside : WalkStep.leave t ∈ targets.map WalkStep.enter := by
        rw [first]
        exact List.mem_append_right _ List.mem_cons_self
      exact absurd inside leave_not_mem_enters

theorem Walking.enter {s : Nat} {todo : List WalkStep} {entered left : List Nat}
    (walking : Walking g root (.enter s :: todo) entered left) (isOpen : Open g s) :
    Walking g root ((g.state s).epsilon.map .enter ++ .leave s :: todo) (s :: entered) left := by
  have here := walking.ahead s List.mem_cons_self isOpen
  have pathTo : ∀ higher t lower, todo = higher ++ WalkStep.leave t :: lower → OpenPath g t s := by
    intro higher t lower split
    exact (walking.above (.enter s :: higher) t lower (by rw [split]; rfl)).1 s List.mem_cons_self isOpen
  refine ⟨fun t member => ?_, fun t member => List.mem_cons_of_mem _ (walking.leftEntered t member),
    fun t member => ?_, fun t member => ?_, fun t member isOpenT => ?_, fun higher t lower split => ?_,
    fun t member u edge => List.mem_cons_of_mem _ (walking.behind t member u edge), walking.order⟩
  · rcases List.mem_cons.mp member with rfl | old
    · exact .inr (List.mem_append_right _ List.mem_cons_self)
    · rcases walking.settled t old with done | pending
      · exact .inl done
      · refine .inr (List.mem_append_right _ (List.mem_cons_of_mem _ ?_))
        simpa using pending
  · rcases List.mem_append.mp member with entering | later
    · exact absurd entering leave_not_mem_enters
    · rcases List.mem_cons.mp later with same | old
      · obtain rfl := WalkStep.leave.inj same
        exact List.mem_cons_self
      · exact List.mem_cons_of_mem _ (walking.leaveEntered t (List.mem_cons_of_mem _ old))
  · rcases List.mem_cons.mp member with rfl | old
    · exact ⟨isOpen, here⟩
    · exact walking.reached t old
  · rcases List.mem_append.mp member with entering | later
    · obtain ⟨u, edge, same⟩ := List.mem_map.mp entering
      obtain rfl := WalkStep.enter.inj same
      exact here.tail ⟨edge, isOpenT⟩
    · refine walking.ahead t (List.mem_cons_of_mem _ ?_) isOpenT
      simpa using later
  · rcases split_enters split with ⟨rfl, rfl⟩ | ⟨rest, rfl, rfl⟩
    · refine ⟨fun u member isOpenU => ?_, fun u member => absurd member leave_not_mem_enters, fun u edge => ?_⟩
      · obtain ⟨v, edge, same⟩ := List.mem_map.mp member
        obtain rfl := WalkStep.enter.inj same
        exact .single ⟨edge, isOpenU⟩
      · exact .inr (List.mem_map.mpr ⟨u, edge.1, rfl⟩)
    · obtain ⟨enters, leaves, next⟩ := walking.above (.enter s :: rest) t lower rfl
      have toHere := pathTo rest t lower rfl
      refine ⟨fun u member isOpenU => ?_, fun u member => ?_, fun u edge => ?_⟩
      · rcases List.mem_append.mp member with entering | later
        · obtain ⟨v, edge, same⟩ := List.mem_map.mp entering
          obtain rfl := WalkStep.enter.inj same
          exact toHere.tail ⟨edge, isOpenU⟩
        · refine enters u (List.mem_cons_of_mem _ ?_) isOpenU
          simpa using later
      · rcases List.mem_append.mp member with entering | later
        · exact absurd entering leave_not_mem_enters
        · rcases List.mem_cons.mp later with same | old
          · obtain rfl := WalkStep.leave.inj same
            exact toHere
          · exact leaves u (List.mem_cons_of_mem _ old)
      · rcases next u edge with known | pending
        · exact .inl (List.mem_cons_of_mem _ known)
        · rcases List.mem_cons.mp pending with same | later
          · obtain rfl := WalkStep.enter.inj same
            exact .inl List.mem_cons_self
          · exact .inr (List.mem_append_right _ (List.mem_cons_of_mem _ later))

/-- A walk that has come to its end has entered everything there was to enter. -/
theorem Walking.finish {todo : List WalkStep} {entered left : List Nat}
    (walking : Walking g root todo entered left) :
    ∃ all, Walking g root [] all (g.walk todo entered left).reverse ∧ (∀ s ∈ entered, s ∈ all) ∧
      ∀ s, WalkStep.enter s ∈ todo → Open g s → s ∈ all := by
  induction todo, entered, left using walk.induct g with
  | case1 entered left =>
    rw [walk, List.reverse_reverse]
    exact ⟨entered, walking, fun s member => member, fun s member => nomatch member⟩
  | case2 s todo entered left ih =>
    rw [walk]
    obtain ⟨all, finished, kept, rest⟩ := ih walking.leave
    exact ⟨all, finished, kept, fun t member => rest t (by simpa using member)⟩
  | case3 s todo entered left fresh ih =>
    rw [walk, dif_pos fresh]
    obtain ⟨inside, new, unclosed⟩ := fresh
    have isOpen : Open g s := ⟨inside, unclosed⟩
    obtain ⟨all, finished, kept, rest⟩ := ih (walking.enter isOpen)
    refine ⟨all, finished, fun t member => kept t (List.mem_cons_of_mem _ member), fun t member isOpenT => ?_⟩
    rcases List.mem_cons.mp member with same | later
    · obtain rfl := WalkStep.enter.inj same
      exact kept t List.mem_cons_self
    · exact rest t (List.mem_append_right _ (List.mem_cons_of_mem _ later)) isOpenT
  | case4 s todo entered left stale ih =>
    rw [walk, dif_neg stale]
    have known : Open g s → s ∈ entered := by
      rintro ⟨inside, unclosed⟩
      by_cases member : s ∈ entered
      · exact member
      · exact absurd ⟨inside, by simpa using member, unclosed⟩ stale
    obtain ⟨all, finished, kept, rest⟩ := ih (walking.skip known)
    refine ⟨all, finished, kept, fun t member isOpenT => ?_⟩
    rcases List.mem_cons.mp member with same | later
    · obtain rfl := WalkStep.enter.inj same
      exact kept t (known isOpenT)
    · exact rest t later isOpenT

theorem walking_root : Walking g root [.enter root] [] [] where
  settled s member := nomatch member
  leftEntered s member := nomatch member
  leaveEntered s member := by simp at member
  reached s member := nomatch member
  ahead s member _ := by
    obtain rfl := WalkStep.enter.inj (List.mem_singleton.mp member)
    exact .refl
  above higher s lower split := by
    have inside : WalkStep.leave s ∈ [WalkStep.enter root] := by
      rw [split]
      exact List.mem_append_right _ List.mem_cons_self
    simp at inside
  behind s member := nomatch member
  order := trivial

/-- What the walk lists is what can be reached through open states. -/
theorem mem_openReach {s : Nat} : s ∈ g.openReach root ↔ Open g root ∧ OpenPath g root s := by
  obtain ⟨all, finished, _, entered⟩ := (@walking_root g root).finish
  have listed : ∀ t, t ∈ g.openReach root ↔ t ∈ all := by
    intro t
    constructor
    · intro member
      exact finished.leftEntered t (List.mem_reverse.mpr member)
    · intro member
      rcases finished.settled t member with done | pending
      · exact List.mem_reverse.mp done
      · cases pending
  rw [listed]
  constructor
  · intro member
    obtain ⟨isOpen, path⟩ := finished.reached s member
    refine ⟨?_, path⟩
    rcases Relation.ReflTransGen.cases_head path with same | ⟨next, edge, _⟩
    · exact same ▸ isOpen
    · by_contra closed
      -- A closed root is not entered at all.
      have nothing : g.openReach root = [] := by
        have stale : ¬ (root < g.size ∧ List.contains [] root = false ∧ (g.state root).isClosed = false) :=
          fun fresh => closed ⟨fresh.1, fresh.2.2⟩
        rw [openReach, walk, dif_neg stale, walk]
        rfl
      have inside := (listed s).mpr member
      rw [nothing] at inside
      cases inside
  · rintro ⟨isOpen, path⟩
    induction path with
    | refl => exact entered root List.mem_cons_self isOpen
    | tail _ edge ih =>
      rcases finished.settled _ ih with done | pending
      · exact finished.behind _ done _ edge
      · cases pending

theorem openReach_inOrder : LeftInOrder g (g.openReach root).reverse := by
  obtain ⟨all, finished, _, _⟩ := (@walking_root g root).finish
  exact finished.order

/-- The states that a walk has still to leave, the next one first. -/
def pending (todo : List WalkStep) : List Nat :=
  todo.filterMap fun step => match step with
    | .enter _ => none
    | .leave id => some id

theorem pending_enters (targets : List Nat) (todo : List WalkStep) :
    pending (targets.map .enter ++ todo) = pending todo := by
  simp [pending, List.filterMap_append]

theorem walk_nodup {todo : List WalkStep} {entered left : List Nat} (distinct : (left ++ pending todo).Nodup)
    (known : ∀ s ∈ left ++ pending todo, s ∈ entered) : (g.walk todo entered left).Nodup := by
  induction todo, entered, left using walk.induct g with
  | case1 entered left =>
    rw [walk]
    simpa [pending] using distinct
  | case2 s todo entered left ih =>
    rw [walk]
    have same : (s :: left ++ pending todo).Perm (left ++ pending (.leave s :: todo)) := List.perm_middle.symm
    exact ih (same.nodup_iff.mpr distinct) fun t member => known t (same.mem_iff.mp member)
  | case3 s todo entered left fresh ih =>
    rw [walk, dif_pos fresh]
    have later : pending ((g.state s).epsilon.map .enter ++ .leave s :: todo) = s :: pending todo :=
      pending_enters _ _
    have same : (left ++ s :: pending todo).Perm (s :: (left ++ pending todo)) := List.perm_middle
    have new : s ∉ left ++ pending todo := fun member => by
      have old := List.contains_iff_mem.mpr (known s member)
      rw [fresh.2.1] at old
      cases old
    rw [later] at ih
    refine ih (same.nodup_iff.mpr (List.nodup_cons.mpr ⟨new, distinct⟩)) fun t member => ?_
    rcases List.mem_cons.mp (same.mem_iff.mp member) with rfl | old
    · exact List.mem_cons_self
    · exact List.mem_cons_of_mem _ (known t old)
  | case4 s todo entered left stale ih =>
    rw [walk, dif_neg stale]
    exact ih distinct known

/-- The walk leaves each state once. -/
theorem openReach_nodup : (g.openReach root).Nodup :=
  walk_nodup (by simp [pending]) (by simp [pending])

theorem open_of_mem_openReach {s : Nat} (member : s ∈ g.openReach root) : Open g s := by
  obtain ⟨isOpen, path⟩ := mem_openReach.mp member
  rcases Relation.ReflTransGen.cases_tail path with same | ⟨_, _, edge⟩
  · exact same ▸ isOpen
  · exact edge.2

end TokenTables.Automaton.Graph
