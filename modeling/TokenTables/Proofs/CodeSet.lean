import TokenTables.CodeSet

/-!
Members of code sets: what each insertion adds, and that a set without members is the empty one.
-/

namespace TokenTables.CodeSet

variable {n : Nat}

@[simp] theorem contains_empty {code : Nat} : (empty : CodeSet n).contains code = false := by
  simp [empty, contains]

theorem contains_insert {s : CodeSet n} {added code : Nat} (small : added < n) :
    (s.insert added).contains code = true ↔ code = added ∨ s.contains code = true := by
  simp only [insert, contains, BitVec.getLsbD_or, BitVec.getLsbD_twoPow, small, decide_true, Bool.true_and,
    Bool.or_eq_true, decide_eq_true_eq]
  constructor
  · rintro (old | same)
    · exact .inr old
    · exact .inl same.symm
  · rintro (same | old)
    · exact .inr same.symm
    · exact .inl old

theorem contains_foldl_insert {codes : List Nat} {s : CodeSet n} {code : Nat}
    (small : ∀ added ∈ codes, added < n) :
    (codes.foldl insert s).contains code = true ↔ code ∈ codes ∨ s.contains code = true := by
  induction codes generalizing s with
  | nil => simp
  | cons first rest ih =>
    rw [List.foldl_cons, ih fun added member => small added (List.mem_cons_of_mem _ member),
      contains_insert (small first List.mem_cons_self), List.mem_cons, or_assoc, or_left_comm]

theorem contains_insertRange {s : CodeSet n} {first last code : Nat} (small : last < n) :
    (s.insertRange first last).contains code = true ↔
      (first ≤ code ∧ code ≤ last) ∨ s.contains code = true := by
  have inside : ∀ added ∈ List.range' first (last + 1 - first), added < n := by
    intro added member
    have := List.mem_range'_1.mp member
    omega
  have within : (first ≤ code ∧ code < first + (last + 1 - first)) ↔ (first ≤ code ∧ code ≤ last) := by
    omega
  rw [insertRange, contains_foldl_insert inside, List.mem_range'_1, within]

theorem contains_ofList {codes : List Nat} {code : Nat} (small : ∀ added ∈ codes, added < n) :
    (ofList codes : CodeSet n).contains code = true ↔ code ∈ codes := by
  simp [ofList, contains_foldl_insert small]

theorem lt_of_contains {s : CodeSet n} {code : Nat} (member : s.contains code = true) : code < n :=
  BitVec.lt_of_getLsbD member

theorem eq_empty_iff {s : CodeSet n} : s = empty ↔ ∀ code, s.contains code = false := by
  constructor
  · rintro rfl code
    exact contains_empty
  · intro none
    apply BitVec.eq_of_getLsbD_eq
    intro code _
    rw [show s.getLsbD code = false from none code]
    simp [empty]

theorem ext {s t : CodeSet n} (same : ∀ code, s.contains code = t.contains code) : s = t :=
  BitVec.eq_of_getLsbD_eq fun code _ => same code

end TokenTables.CodeSet
