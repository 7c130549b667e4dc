import Mathlib.Data.Finset.Card
import Mathlib.Logic.Function.Basic
import TokenTables.Proofs.KindSet

/-!
Several sets of kinds as they are changed. Whatever is put into them and whatever room their words are given, each answers
every question as the finite set of what was put into it does, and two of them are equal just when these are.
-/

namespace TokenTables

/-- A change to one of several sets, which are numbered. -/
inductive KindSetChange where
  | insert (k : Kind)
  | insertAll (kinds : List Kind)
  /-- Starts anew. -/
  | ofList (kinds : List Kind)
  /-- Takes in the members of the set with this number. -/
  | union (other : Nat)
  /-- Makes room for words that hold nothing. -/
  | grow (words : Nat)

namespace KindSetChange

/-- What set `i` becomes. -/
def result (sets : Nat → KindSet) (i : Nat) : KindSetChange → KindSet
  | insert k => ((sets i).insertNew k).1
  | insertAll kinds => (sets i).insertAll kinds
  | ofList kinds => .ofList kinds
  | union other => (sets i).union (sets other)
  | grow words => (sets i).grow words

/-- What a finite set in its place becomes. -/
def finiteResult (sets : Nat → Finset Kind) (i : Nat) : KindSetChange → Finset Kind
  | insert k => Insert.insert k (sets i)
  | insertAll kinds => sets i ∪ kinds.toFinset
  | ofList kinds => kinds.toFinset
  | union other => sets i ∪ sets other
  | grow _ => sets i

/-- The sets after a change to the one with the number before it. -/
def apply (sets : Nat → KindSet) (change : Nat × KindSetChange) : Nat → KindSet :=
  Function.update sets change.1 (change.2.result sets change.1)

def applyFinite (sets : Nat → Finset Kind) (change : Nat × KindSetChange) : Nat → Finset Kind :=
  Function.update sets change.1 (change.2.finiteResult sets change.1)

end KindSetChange

namespace KindSet

/-- All sets after these changes, none of them with a member before. -/
def afterChanges (changes : List (Nat × KindSetChange)) : Nat → KindSet :=
  changes.foldl KindSetChange.apply fun _ => .empty

/-- What was put into each of them. -/
def membersAfter (changes : List (Nat × KindSetChange)) : Nat → Finset Kind :=
  changes.foldl KindSetChange.applyFinite fun _ => ∅

/-- The set answers every question as the finite set does. -/
structure Holds (s : KindSet) (members : Finset Kind) : Prop where
  contains : ∀ k, s.contains k = true ↔ k ∈ members
  fresh : ∀ k, (s.insertNew k).2 = true ↔ k ∉ members
  isEmpty : s.isEmpty = true ↔ members = ∅
  size : s.size = members.card
  first : ∀ k, s.first? = some k ↔ k ∈ members ∧ ∀ other ∈ members, k ≤ other
  listed : ∀ k, k ∈ s.toList ↔ k ∈ members
  ascending : s.toList.Pairwise (· < ·)

variable {s t : KindSet} {members others : Finset Kind}

/-- All answers follow from that about members. -/
theorem holds_of_contains (same : ∀ k, s.contains k = true ↔ k ∈ members) : s.Holds members := by
  have absent : ∀ k, s.contains k = false ↔ k ∉ members := fun k => by rw [← same, Bool.not_eq_true]
  have listed : ∀ k, k ∈ s.toList ↔ k ∈ members := fun k => mem_toList.trans (same k)
  have distinct : s.toList.Nodup := s.toList_ascending.imp Nat.ne_of_lt
  refine ⟨same, fun k => insertNew_fresh.trans (absent k), ?_, ?_, fun k => ?_, listed, s.toList_ascending⟩
  · simp only [isEmpty_iff, absent, Finset.eq_empty_iff_forall_notMem]
  · have one : s.toList.toFinset = members := by
      ext k
      rw [List.mem_toFinset, listed]
    rw [size_eq_length, ← List.toFinset_card_of_nodup distinct, one]
  · simp only [first?_eq_some_iff, same]

theorem Holds.eq_iff (left : s.Holds members) (right : t.Holds others) :
    (∀ k, s.contains k = t.contains k) ↔ members = others := by
  simp only [Bool.eq_iff_iff, left.contains, right.contains, Finset.ext_iff]

theorem holds_empty : empty.Holds ∅ := holds_of_contains fun k => by simp [empty, contains_empty]

section

variable {sets : Nat → KindSet} {finite : Nat → Finset Kind}

theorem holds_result (all : ∀ i, (sets i).Holds (finite i)) (i : Nat) (change : KindSetChange) :
    (change.result sets i).Holds (change.finiteResult finite i) := by
  refine holds_of_contains fun k => ?_
  have here := (all i).contains k
  cases change with
  | insert new =>
    have added : ((sets i).insert new).contains k = true ↔ k = new ∨ (sets i).contains k = true := contains_insert
    rw [KindSetChange.finiteResult, Finset.mem_insert, ← here]
    exact added
  | insertAll kinds =>
    rw [KindSetChange.result, contains_insertAll, here, KindSetChange.finiteResult, Finset.mem_union, List.mem_toFinset,
      or_comm]
  | ofList kinds => rw [KindSetChange.result, contains_ofList, KindSetChange.finiteResult, List.mem_toFinset]
  | union other =>
    rw [KindSetChange.result, contains_union, here, (all other).contains, KindSetChange.finiteResult, Finset.mem_union]
  | grow words => rw [KindSetChange.result, contains_grow, here, KindSetChange.finiteResult]

theorem holds_apply (all : ∀ i, (sets i).Holds (finite i)) (change : Nat × KindSetChange) (i : Nat) :
    (KindSetChange.apply sets change i).Holds (KindSetChange.applyFinite finite change i) := by
  unfold KindSetChange.apply KindSetChange.applyFinite
  by_cases here : i = change.1
  · subst here
    rw [Function.update_self, Function.update_self]
    exact holds_result all _ change.2
  · rw [Function.update_of_ne here, Function.update_of_ne here]
    exact all i

theorem holds_foldl (all : ∀ i, (sets i).Holds (finite i)) (changes : List (Nat × KindSetChange)) (i : Nat) :
    (changes.foldl KindSetChange.apply sets i).Holds (changes.foldl KindSetChange.applyFinite finite i) := by
  induction changes generalizing sets finite with
  | nil => exact all i
  | cons first rest ih => exact ih (holds_apply all first)

end

/-- After any changes each set holds what was put into it. Two sets are equal, by comparison and word for word, just when
they hold the same, and then they hash alike. -/
theorem sets_hold_members (changes : List (Nat × KindSetChange)) :
    (∀ i, (afterChanges changes i).Holds (membersAfter changes i)) ∧
      ∀ i j,
        ((afterChanges changes i == afterChanges changes j) = true ↔ membersAfter changes i = membersAfter changes j) ∧
        ((afterChanges changes i).usedWords = (afterChanges changes j).usedWords ↔
          membersAfter changes i = membersAfter changes j) ∧
        (membersAfter changes i = membersAfter changes j → hash (afterChanges changes i) = hash (afterChanges changes j)) := by
  have holds : ∀ i, (afterChanges changes i).Holds (membersAfter changes i) := holds_foldl (fun _ => holds_empty) changes
  refine ⟨holds, fun i j => ?_⟩
  have same := (holds i).eq_iff (holds j)
  refine ⟨beq_iff.trans same, usedWords_eq_iff.trans same, fun members => ?_⟩
  exact LawfulHashable.hash_eq _ _ (beq_iff.mpr (same.mpr members))

end KindSet

end TokenTables
