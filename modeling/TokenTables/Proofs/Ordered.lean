import Mathlib.Data.List.Sort
import Mathlib.Order.Monotone.Basic
import TokenTables.Ordered

/-!
Insertion into ascending lists of numbers: what it adds, that it keeps the order, and that an ascending
list is determined by its members.
-/

namespace TokenTables

theorem reverse_range_succ (n : Nat) : (List.range (n + 1)).reverse = n :: (List.range n).reverse := by
  rw [List.range_succ, List.reverse_append, List.reverse_singleton, List.singleton_append]

theorem reverse_range'_succ (first n : Nat) :
    (List.range' first (n + 1)).reverse = (first + n) :: (List.range' first n).reverse := by
  rw [List.range'_1_concat, List.reverse_append, List.reverse_singleton, List.singleton_append]

theorem mem_insertOrdered {α : Type} [BEq α] [LawfulBEq α] {le : α → α → Bool} {x y : α} {xs : List α} :
    y ∈ insertOrdered le x xs ↔ y = x ∨ y ∈ xs := by
  induction xs with
  | nil => simp [insertOrdered]
  | cons z rest ih =>
    unfold insertOrdered
    split
    · rename_i same
      obtain rfl := beq_iff_eq.mp same
      simp
    · split
      · simp
      · simp only [List.mem_cons, ih]
        grind

theorem mem_insertNat {x y : Nat} {xs : List Nat} : y ∈ insertNat x xs ↔ y = x ∨ y ∈ xs :=
  mem_insertOrdered

theorem length_insertNat {x : Nat} {xs : List Nat} (new : x ∉ xs) : (insertNat x xs).length = xs.length + 1 := by
  induction xs with
  | nil => rfl
  | cons y rest ih =>
    have different : (x == y) = false := beq_eq_false_iff_ne.mpr fun same => new (same ▸ List.mem_cons_self)
    have later := ih fun member => new (List.mem_cons_of_mem _ member)
    unfold insertNat insertOrdered
    rw [if_neg (by rw [different]; simp)]
    split
    · rfl
    · exact congrArg (· + 1) later

/-- Insertion moves what is there to the same place or to a later one. -/
theorem getElem?_insertNat {x y i : Nat} {xs : List Nat} (here : xs[i]? = some y) :
    ∃ j ≥ i, (insertNat x xs)[j]? = some y := by
  induction xs generalizing i with
  | nil => cases here
  | cons z rest ih =>
    unfold insertNat insertOrdered
    split
    · exact ⟨i, Nat.le_refl _, here⟩
    · split
      · exact ⟨i + 1, Nat.le_succ _, here⟩
      · cases i with
        | zero => exact ⟨0, Nat.le_refl _, here⟩
        | succ i =>
          obtain ⟨j, later, there⟩ := ih here
          exact ⟨j + 1, Nat.succ_le_succ later, there⟩

/-- Numbers in order, each once. -/
abbrev Ascending (xs : List Nat) : Prop := xs.Pairwise (· < ·)

/-- Inserting goes along with a renumbering that keeps the order. -/
theorem insertNat_map {place : Nat → Nat} (keeps : StrictMono place) (x : Nat) (xs : List Nat) :
    insertNat (place x) (xs.map place) = (insertNat x xs).map place := by
  induction xs with
  | nil => rfl
  | cons y rest ih =>
    have same : (place x == place y) = (x == y) := by
      rw [Bool.eq_iff_iff, beq_iff_eq, beq_iff_eq]
      exact keeps.injective.eq_iff
    have before : Nat.ble (place x) (place y) = Nat.ble x y := by
      rw [Bool.eq_iff_iff, Nat.ble_eq, Nat.ble_eq]
      exact keeps.le_iff_le
    unfold insertNat insertOrdered
    rw [List.map_cons]
    dsimp only
    rw [same, before]
    split
    · rfl
    · split
      · rfl
      · exact congrArg (place y :: ·) ih

theorem insertNat_ascending {x : Nat} {xs : List Nat} (sorted : Ascending xs) :
    Ascending (insertNat x xs) := by
  induction xs with
  | nil => simp [insertNat, insertOrdered]
  | cons z rest ih =>
    obtain ⟨first, others⟩ := List.pairwise_cons.mp sorted
    unfold insertNat insertOrdered
    split
    · exact sorted
    · rename_i other
      have different : x ≠ z := by simpa using other
      split
      · rename_i small
        have le : x ≤ z := Nat.ble_eq.mp small
        refine List.pairwise_cons.mpr ⟨fun y member => ?_, sorted⟩
        rcases List.mem_cons.mp member with rfl | later
        · omega
        · have above := first y later
          omega
      · rename_i large
        have lt : z < x := by
          have notLe : ¬ x ≤ z := fun le => large (Nat.ble_eq.mpr le)
          omega
        refine List.pairwise_cons.mpr ⟨fun y member => ?_, ih others⟩
        rcases mem_insertNat.mp member with rfl | later
        · exact lt
        · exact first y later

theorem foldl_insertNat_ascending {xs acc : List Nat} (sorted : Ascending acc) :
    Ascending (xs.foldl (fun acc x => insertNat x acc) acc) := by
  induction xs generalizing acc with
  | nil => exact sorted
  | cons x rest ih => exact ih (insertNat_ascending sorted)

theorem mem_foldl_insertNat {xs acc : List Nat} {y : Nat} :
    y ∈ xs.foldl (fun acc x => insertNat x acc) acc ↔ y ∈ acc ∨ y ∈ xs := by
  induction xs generalizing acc with
  | nil => simp
  | cons x rest ih =>
    rw [List.foldl_cons, ih, mem_insertNat, List.mem_cons]
    grind

theorem ascending_ascending (xs : List Nat) : Ascending (ascending xs) :=
  foldl_insertNat_ascending List.Pairwise.nil

@[simp] theorem mem_ascending {xs : List Nat} {y : Nat} : y ∈ ascending xs ↔ y ∈ xs := by
  simp [ascending, mem_foldl_insertNat]

/-- An ascending list is determined by its members. -/
theorem Ascending.ext {xs ys : List Nat} (hx : Ascending xs) (hy : Ascending ys)
    (same : ∀ n, n ∈ xs ↔ n ∈ ys) : xs = ys :=
  List.Pairwise.eq_of_mem_iff hx hy (fun {n} => same n)

end TokenTables
