import TokenTables.Proofs.Automaton.Closing
import TokenTables.Proofs.Automaton.Sprouting

/-!
Graphs as they are put together: by building expressions, linking states and saying where matches end, in any order.
-/

namespace TokenTables.Automaton.Graph

open Kind (IsBest)

/-- The graph is put together step by step from nothing. `accepted` lists the matches that end in its states. -/
inductive Made : (g : Graph) → (accepted : List (StateId × Kind)) → Prop where
  | empty : Made {} []
  | initial {g accepted} (before : Made g accepted) : Made g.withInitial.1 accepted
  /-- Builds that end at a fault count as well. -/
  | build {g accepted} (before : Made g accepted) (settings : BuildSettings) (r : Regex) :
    Made (g.build settings r).graph accepted
  | link {g accepted source target} (before : Made g accepted) (inside : source < g.size) (there : target < g.size) :
    Made (g.linkEpsilon source target) accepted
  | accept {g accepted id kind} (before : Made g accepted) (inside : id < g.size) :
    Made (g.acceptAt id kind) ((id, kind) :: accepted)

/-- A kind that has been given to the state. -/
def Given (accepted : List (StateId × Kind)) (s : Nat) (kind : Option Kind) : Prop :=
  ∃ k, kind = some k ∧ (s, k) ∈ accepted

/-- The graph has been put together and not closed yet. -/
structure Laid (g : Graph) (accepted : List (StateId × Kind)) : Prop where
  range : InRange g
  ascending : ∀ s : Nat, Ascending (g.state s).epsilon
  isOpen : ∀ s : Nat, (g.state s).isClosed = false
  kind : ∀ s : Nat, IsBest (g.state s).kind (Given accepted s)
  isFinal : ∀ s : Nat, (g.state s).isFinal = true ↔ ∃ k, (s, k) ∈ accepted
  inside : ∀ s k, (s, k) ∈ accepted → s < g.size

variable {g h : Graph} {accepted : List (StateId × Kind)}

theorem isBest_none {s : Nat} (none : ∀ k, (s, k) ∉ accepted) : IsBest .none (Given accepted s) where
  found k same := nomatch same
  first := by
    rintro _ ⟨k, _, member⟩
    exact absurd member (none k)

theorem laid_empty : Laid {} [] := by
  have blank : ∀ s : Nat, ({} : Graph).state s = {} := fun s => state_of_size_le (Nat.zero_le s)
  refine ⟨fun s q edge => ?_, fun s => ?_, fun s => ?_, fun s => ?_, fun s => ?_, fun s k member => nomatch member⟩
  · rw [blank s] at edge
    cases edge
  · rw [blank s]
    exact .nil
  · rw [blank s]
  · rw [blank s]
    exact isBest_none fun k => List.not_mem_nil
  · rw [blank s]
    simp

theorem Laid.sprouted (laid : Laid g accepted) (sprouted : Sprouted g h) : Laid h accepted := by
  have fresh : ∀ s : Nat, g.size ≤ s → Unmarked (h.state s) := fun s beyond => by
    rcases Nat.lt_or_ge s h.size with inside | out
    · exact sprouted.fresh s beyond inside
    · rw [state_of_size_le out]
      rfl
  have notAccepted : ∀ s : Nat, g.size ≤ s → ∀ k, (s, k) ∉ accepted := fun s beyond k member =>
    absurd (laid.inside s k member) (Nat.not_lt.mpr beyond)
  refine ⟨fun s q edge => ?_, fun s => ?_, fun s => ?_, fun s => ?_, fun s => ?_,
    fun s k member => (laid.inside s k member).trans_le sprouted.size_le⟩
  all_goals rcases Nat.lt_or_ge s g.size with old | beyond
  · rw [sprouted.kept s old] at edge
    exact (laid.range s q edge).trans_le sprouted.size_le
  · exact (sprouted.among s beyond q edge).2
  · rw [sprouted.kept s old]
    exact laid.ascending s
  · exact sprouted.ascending s beyond
  · rw [sprouted.kept s old]
    exact laid.isOpen s
  · rw [fresh s beyond]
  · rw [sprouted.kept s old]
    exact laid.kind s
  · rw [fresh s beyond]
    exact isBest_none (notAccepted s beyond)
  · rw [sprouted.kept s old]
    exact laid.isFinal s
  · rw [fresh s beyond]
    exact iff_of_false Bool.false_ne_true fun ⟨k, member⟩ => notAccepted s beyond k member

theorem Laid.initial (laid : Laid g accepted) : Laid g.withInitial.1 accepted := by
  unfold withInitial
  split
  · exact laid
  · have added := laid.sprouted (Sprouted.refl.addState)
    exact ⟨added.range, added.ascending, added.isOpen, added.kind, added.isFinal, added.inside⟩

theorem Laid.link {source target : Nat} (laid : Laid g accepted) (there : target < g.size) :
    Laid (g.linkEpsilon source target) accepted := by
  have same : ∀ s : Nat, (g.linkEpsilon source target).state s =
      { g.state s with epsilon := ((g.linkEpsilon source target).state s).epsilon } := by
    intro s
    rw [linkEpsilon, state_alter]
    split
    · rename_i here
      rw [here.1]
    · rfl
  have epsilon : ∀ s : Nat, ((g.linkEpsilon source target).state s).epsilon = (g.state s).epsilon ∨
      ((g.linkEpsilon source target).state s).epsilon = insertNat target (g.state s).epsilon := by
    intro s
    rw [linkEpsilon, state_alter]
    split
    · rename_i here
      exact .inr (by rw [here.1])
    · exact .inl rfl
  refine ⟨fun s q edge => ?_, fun s => ?_, fun s => ?_, fun s => ?_, fun s => ?_, fun s k member => ?_⟩
  · rw [size_linkEpsilon]
    rcases epsilon s with list | list
    · exact laid.range s q (list ▸ edge)
    · rw [list] at edge
      rcases mem_insertNat.mp edge with rfl | old
      · exact there
      · exact laid.range s q old
  · rcases epsilon s with list | list
    · rw [list]
      exact laid.ascending s
    · rw [list]
      exact insertNat_ascending (laid.ascending s)
  · rw [same s]
    exact laid.isOpen s
  · rw [same s]
    exact laid.kind s
  · rw [same s]
    exact laid.isFinal s
  · rw [size_linkEpsilon]
    exact laid.inside s k member

theorem Laid.accept {id : Nat} {kind : Kind} (laid : Laid g accepted) (inside : id < g.size) :
    Laid (g.acceptAt id kind) ((id, kind) :: accepted) := by
  have size : (g.acceptAt id kind).size = g.size := size_alter
  have here : (g.acceptAt id kind).state id =
      { g.state id with isFinal := true, kind := Kind.better (g.state id).kind (some kind) } := state_alter_same inside
  have other : ∀ s : Nat, s ≠ id → (g.acceptAt id kind).state s = g.state s := fun s different =>
    state_alter_other different
  have given : ∀ s : Nat, s ≠ id → ∀ k, (s, k) ∈ (id, kind) :: accepted ↔ (s, k) ∈ accepted := fun s different k => by
    simp [different]
  refine ⟨fun s q edge => ?_, fun s => ?_, fun s => ?_, fun s => ?_, fun s => ?_, fun s k member => ?_⟩
  all_goals by_cases same : s = id
  · subst same
    rw [here] at edge
    rw [size]
    exact laid.range s q edge
  · rw [other s same] at edge
    rw [size]
    exact laid.range s q edge
  · subst same
    rw [here]
    exact laid.ascending s
  · rw [other s same]
    exact laid.ascending s
  · subst same
    rw [here]
    exact laid.isOpen s
  · rw [other s same]
    exact laid.isOpen s
  · subst same
    rw [here]
    refine (laid.kind s).better.congr fun k => ?_
    simp [Given, or_comm]
  · rw [other s same]
    exact (laid.kind s).congr fun k => by simp [Given, same]
  · subst same
    rw [here]
    exact iff_of_true rfl ⟨kind, List.mem_cons_self⟩
  · rw [other s same, laid.isFinal s]
    exact exists_congr fun k => (given s same k).symm
  · rwa [same, size]
  · rw [size]
    exact laid.inside s k ((given s same k).mp member)

/-- A graph that has been put together is in order. -/
theorem Made.laid (made : Made g accepted) : Laid g accepted := by
  induction made with
  | empty => exact laid_empty
  | initial _ ih => exact ih.initial
  | build _ settings r ih => exact ih.sprouted (build_sprouted _ settings r)
  | link _ _ there ih => exact ih.link there
  | accept _ inside ih => exact ih.accept inside

end TokenTables.Automaton.Graph
