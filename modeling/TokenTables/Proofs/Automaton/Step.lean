import TokenTables.Proofs.Automaton.Dispatch
import TokenTables.Proofs.Automaton.Naming
import TokenTables.Proofs.Kind

/-!
Running a graph. Reading a character reports the best kind of the active states that accept it and enters the
states after them.
-/

namespace TokenTables.Automaton.Graph

open Kind (IsBest)

/-- The kind reported and the states active after each character of a text. -/
def trace (g : Graph) : (active : List StateId) → List Char → List (Option Kind × List StateId)
  | _, [] => []
  | active, c :: rest => g.step c active :: g.trace (g.step c active).2 rest

variable {g h : Graph} {c : Char}

/-- What reading `c` in one more state adds. -/
def stepIn (g : Graph) (c : Char) (reached : Option Kind × List StateId) (id : StateId) :
    Option Kind × List StateId :=
  if (g.state id).accepts c then
    (Kind.better reached.1 (g.state id).reported,
      (g.listAfter id).reverse.foldl (fun acc t => insertNat t acc) reached.2)
  else reached

theorem step_eq (active : List StateId) : g.step c active = active.reverse.foldl (g.stepIn c) (none, []) := rfl

theorem stepIn_ok (ids : List StateId) (reached : Option Kind × List StateId) {P : Option Kind → Prop}
    (best : IsBest reached.1 P) (sorted : Ascending reached.2) :
    IsBest (ids.foldl (g.stepIn c) reached).1
      (fun k => P k ∨ ∃ id ∈ ids, (g.state id).accepts c = true ∧ k = (g.state id).reported) ∧
    (∀ t, t ∈ (ids.foldl (g.stepIn c) reached).2 ↔
      t ∈ reached.2 ∨ ∃ id ∈ ids, (g.state id).accepts c = true ∧ t ∈ g.listAfter id) ∧
    Ascending (ids.foldl (g.stepIn c) reached).2 := by
  induction ids generalizing reached P with
  | nil => exact ⟨best.congr fun k => by simp, fun t => by simp, sorted⟩
  | cons id rest ih =>
    rw [List.foldl_cons]
    cases accepts : (g.state id).accepts c with
    | true =>
      have one : g.stepIn c reached id = (Kind.better reached.1 (g.state id).reported,
          (g.listAfter id).reverse.foldl (fun acc t => insertNat t acc) reached.2) := by
        unfold stepIn
        rw [accepts]
        rfl
      obtain ⟨kinds, members, order⟩ := ih (g.stepIn c reached id)
        (by rw [one]; exact best.better) (by rw [one]; exact foldl_insertNat_ascending sorted)
      refine ⟨kinds.congr fun k => ?_, fun t => ?_, order⟩
      · simp only [List.exists_mem_cons_iff, accepts, true_and, or_assoc]
      · rw [members, one]
        simp only [mem_foldl_insertNat, List.mem_reverse, List.exists_mem_cons_iff, accepts, true_and, or_assoc]
    | false =>
      have one : g.stepIn c reached id = reached := by
        unfold stepIn
        rw [accepts]
        rfl
      rw [one]
      obtain ⟨kinds, members, order⟩ := ih reached best sorted
      refine ⟨kinds.congr fun k => ?_, fun t => ?_, order⟩
      · simp only [List.exists_mem_cons_iff, accepts, Bool.false_eq_true, false_and, false_or]
      · rw [members]
        simp only [List.exists_mem_cons_iff, accepts, Bool.false_eq_true, false_and, false_or]

/-- The kind reported is the best of those of the states that accept the character. -/
theorem step_kind (active : List StateId) : IsBest (g.step c active).1
    fun k => ∃ id ∈ active, (g.state id).accepts c = true ∧ k = (g.state id).reported := by
  rw [step_eq]
  refine (stepIn_ok active.reverse (none, []) (.single none) List.Pairwise.nil).1.congr fun k => ?_
  simp

theorem mem_step {active : List StateId} {t : StateId} : t ∈ (g.step c active).2 ↔
    ∃ id ∈ active, (g.state id).accepts c = true ∧ t ∈ g.listAfter id := by
  rw [step_eq, (stepIn_ok active.reverse (none, []) (.single none) List.Pairwise.nil).2.1]
  simp

theorem step_ascending (active : List StateId) : Ascending (g.step c active).2 := by
  rw [step_eq]
  exact (stepIn_ok active.reverse (none, []) (.single none) List.Pairwise.nil).2.2

theorem SameButDispatch.step (same : SameButDispatch g h) (active : List StateId) :
    h.step c active = g.step c active := by
  have listAfter : ∀ s, h.listAfter s = g.listAfter s := by
    intro s
    unfold Graph.listAfter
    rw [same.state s]
    cases (g.state s).next with
    | none => rfl
    | some n =>
      dsimp only
      rw [same.state n]
  have stepIn : h.stepIn c = g.stepIn c := by
    funext reached id
    unfold Graph.stepIn
    rw [listAfter, same.state id]
    rfl
  rw [step_eq, step_eq, stepIn]

end TokenTables.Automaton.Graph
