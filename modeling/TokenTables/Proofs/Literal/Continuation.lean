import TokenTables.Proofs.Literal.Remembered

/-!
Where to go on after literals. It is kept by the kinds of entries, one literal after the other, so that of the literals
entered under one kind the last one decides.
-/

namespace TokenTables.LiteralIndex

open Automaton (EntryName Graph)
open Automaton.Graph (GroupsInOrder MoreGroups StandsFor)

variable {t : LiteralIndex} {g : Graph} {lexState offset : Nat} {tables : CandidateTables} {u : TableUpdate} {l : Literal}
  {k : Kind}

/-- Of the literals entered under a kind, the one with the last kind of its own. -/
structure LastUnder (t : LiteralIndex) (k : Kind) (last : Literal) : Prop where
  member : last ∈ t.literals
  kind : (t.entryOf last).kind = k
  latest : ∀ other ∈ t.literals, (t.entryOf other).kind = k → other.kind ≤ last.kind

theorem entryOf_shiftStates (t : LiteralIndex) (offset : Nat) (l : Literal) :
    (t.shiftStates offset).entryOf l = t.entryOf l := rfl

theorem literals_shiftStates (t : LiteralIndex) (offset : Nat) : (t.shiftStates offset).literals = t.literals := rfl

theorem LastUnder.shiftStates {last : Literal} (isLast : t.LastUnder k last) (offset : Nat) :
    (t.shiftStates offset).LastUnder k last :=
  ⟨isLast.member, isLast.kind, isLast.latest⟩

theorem byKind_sorted (t : LiteralIndex) : t.byKind.Pairwise fun a b => a.kind ≤ b.kind := by
  have transitive : ∀ a b c : Literal, decide (a.kind ≤ b.kind) = true → decide (b.kind ≤ c.kind) = true →
      decide (a.kind ≤ c.kind) = true :=
    fun _ _ _ one two => decide_eq_true (Nat.le_trans (of_decide_eq_true one) (of_decide_eq_true two))
  have total : ∀ a b : Literal, (decide (a.kind ≤ b.kind) || decide (b.kind ≤ a.kind)) = true := fun a b => by
    simp [Nat.le_total]
  exact (List.pairwise_mergeSort transitive total t.literals).imp of_decide_eq_true

/-- The literals in order of kinds end, after the last one entered under a kind, with some entered under others. -/
theorem byKind_last (member : l ∈ t.literals) : ∃ before last after, t.byKind = before ++ last :: after ∧
    t.LastUnder (t.entryOf l).kind last ∧ ∀ other ∈ after, (t.entryOf other).kind ≠ (t.entryOf l).kind := by
  have found : t.byKind.reverse.find? (fun other => (t.entryOf other).kind == (t.entryOf l).kind) ≠ none := by
    rw [Ne, List.find?_eq_none]
    exact fun none => none l (List.mem_reverse.mpr (mem_byKind.mpr member)) (beq_iff_eq.mpr rfl)
  obtain ⟨last, isLast⟩ := Option.ne_none_iff_exists'.mp found
  obtain ⟨same, after, before, split, others⟩ := List.find?_eq_some_iff_append.mp isLast
  have kind : (t.entryOf last).kind = (t.entryOf l).kind := beq_iff_eq.mp same
  have whole : t.byKind = before.reverse ++ last :: after.reverse := by
    rw [← List.reverse_reverse t.byKind, split]
    simp
  have apart : ∀ other ∈ after.reverse, (t.entryOf other).kind ≠ (t.entryOf l).kind := by
    intro other later equal
    have unlike := others other (List.mem_reverse.mp later)
    rw [beq_iff_eq.mpr equal] at unlike
    cases unlike
  have sorted := t.byKind_sorted
  rw [whole, List.pairwise_append] at sorted
  refine ⟨before.reverse, last, after.reverse, whole, ⟨?_, kind, fun other inside equal => ?_⟩, apart⟩
  · rw [← mem_byKind, whole]
    exact List.mem_append_right _ List.mem_cons_self
  · rw [← mem_byKind, whole] at inside
    rcases List.mem_append.mp inside with earlier | later
    · exact sorted.2.2 other earlier last List.mem_cons_self
    · rcases List.mem_cons.mp later with rfl | later
      · exact Nat.le_refl _
      · exact absurd equal (apart other later)

/-- Literals entered under other kinds leave alone where to go on from a kind. -/
theorem startStates_foldl_other {rest : List Literal} (others : ∀ other ∈ rest, (t.entryOf other).kind ≠ k)
    (u : TableUpdate) : (rest.foldl (t.enterLiteral lexState offset) u).tables.startStates[(lexState, k)]? =
      u.tables.startStates[(lexState, k)]? := by
  induction rest generalizing u with
  | nil => rfl
  | cons first rest ih =>
    obtain ⟨apart, others⟩ := List.forall_mem_cons.mp others
    rw [List.foldl_cons, ih others, enterLiteral_eq, CandidateTables.startStates_setStart,
      if_neg fun both => apart both.2, startStates_enterKeys]

theorem Registers.foldl (registers : Registers lexState offset g u) (within : t.ResumesWithin g.nameCount)
    (literals : List Literal) : Registers lexState offset g (literals.foldl (t.enterLiteral lexState offset) u) :=
  List.foldlRecOn (motive := fun u : TableUpdate => Registers lexState offset g u) _ _ registers
    fun _ before l _ => before.enter within l

/-- Where to go on from a kind is where to go on after the last literal entered under it, and the groups made since are
all there at the end. -/
theorem register_last (within : t.ResumesWithin g.nameCount) (ordered : GroupsInOrder g) (absent : Absent lexState tables)
    (member : l ∈ t.literals) : ∃ last, t.LastUnder (t.entryOf l).kind last ∧
      ∃ h : Graph, MoreGroups g h ∧ GroupsInOrder h ∧
        (t.register lexState offset g tables).tables.startStates[(lexState, (t.entryOf l).kind)]? =
          (t.startState (last.length - 1) last.kind h).2.map (· + offset) ∧
        MoreGroups (t.startState (last.length - 1) last.kind h).1 (t.register lexState offset g tables).graph := by
  obtain ⟨before, last, after, whole, isLast, others⟩ := byKind_last member
  have begun : Registers lexState offset g { tables, graph := g } :=
    ⟨.refl g, ordered, fun k name known => by simp [absent.starts k] at known⟩
  have earlier := begun.foldl within before
  have now := earlier.enter within last
  have count := congrArg Array.size now.more.named
  have later := Registers.foldl ⟨.refl _, now.ordered, now.starts⟩ (fun pos k states found n inside =>
    (within pos k states found n inside).trans_eq count.symm) after
  refine ⟨last, isLast, _, earlier.more, earlier.ordered, ?_, ?_⟩
  · unfold register
    rw [whole, List.foldl_append, List.foldl_cons, startStates_foldl_other others, enterLiteral_eq,
      CandidateTables.startStates_setStart, if_pos ⟨rfl, isLast.kind⟩]
  · unfold register
    rw [whole, List.foldl_append, List.foldl_cons]
    exact later.more

/-- The name to go on from stands for the states to go on from, and there is one just when there are such states. -/
theorem startState_names {h : Graph} (within : t.ResumesWithin h.nameCount) (ordered : GroupsInOrder h)
    (minds : t.mixesCase = false) (named : h.nameCount ≠ 0) {pos : Nat} {names : List EntryName}
    (resumes : t.resumptionStates pos k = if names = [] then none else some names) :
    StandsFor (t.startState pos k h).1 (t.startState pos k h).2 (ascending names) ∧
      ((t.startState pos k h).2 = none ↔ names = []) := by
  unfold startState
  rw [minds, if_neg (by simpa using named), resumes]
  by_cases empty : names = []
  · rw [if_pos empty, empty]
    exact ⟨rfl, by simp⟩
  · rw [if_neg empty] at resumes ⊢
    obtain ⟨_, _, stands⟩ := Automaton.Graph.nameOfGroup_ok ordered (within pos k names resumes)
    refine ⟨stands, iff_of_false (fun none => empty ?_) empty⟩
    dsimp only at none
    rw [none] at stands
    refine List.eq_nil_iff_forall_not_mem.mpr fun n inside => ?_
    have listed : n ∈ ascending names := mem_ascending.mpr inside
    rw [show ascending names = [] from stands] at listed
    cases listed

end TokenTables.LiteralIndex
