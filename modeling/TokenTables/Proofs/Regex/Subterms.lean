import TokenTables.Regex

/-!
The subterms of an expression. Each part of an expression has fewer than the whole, and no others.
-/

namespace TokenTables

namespace Regex

theorem self_mem_subterms (r : Regex) : r ∈ r.subterms := by
  cases r <;> simp [subterms]

theorem mem_subtermsOfAll {s : Regex} {parts : List Regex} :
    s ∈ subtermsOfAll parts ↔ ∃ p ∈ parts, s ∈ p.subterms := by
  induction parts with
  | nil => simp [subtermsOfAll]
  | cons p rest ih => simp [subtermsOfAll, ih]

theorem length_subterms_le {p : Regex} {parts : List Regex} (member : p ∈ parts) :
    p.subterms.length ≤ (subtermsOfAll parts).length := by
  induction parts with
  | nil => cases member
  | cons q rest ih =>
    simp only [subtermsOfAll, List.length_append]
    rcases List.mem_cons.mp member with rfl | later
    · omega
    · exact Nat.le_trans (ih later) (Nat.le_add_left _ _)

/-- `p` is a proper part of `r`. -/
structure PartOf (p r : Regex) : Prop where
  subterms : p.subterms ⊆ r.subterms
  shorter : p.subterms.length < r.subterms.length

theorem partOf_sequence {loc : Location} {parts : List Regex} {p : Regex} (member : p ∈ parts) :
    PartOf p (.sequence loc parts) where
  subterms s inside := by simpa [Regex.subterms, mem_subtermsOfAll] using .inr ⟨p, member, inside⟩
  shorter := by simpa [Regex.subterms] using Nat.lt_succ_of_le (length_subterms_le member)

theorem partOf_choice {loc : Location} {alternatives : List Regex} {p : Regex} (member : p ∈ alternatives) :
    PartOf p (.choice loc alternatives) where
  subterms s inside := by simpa [Regex.subterms, mem_subtermsOfAll] using .inr ⟨p, member, inside⟩
  shorter := by simpa [Regex.subterms] using Nat.lt_succ_of_le (length_subterms_le member)

theorem partOf_repetition {loc : Location} {body : Regex} {least : Nat} {most : Option Nat} :
    PartOf body (.repetition loc body least most) where
  subterms s inside := by simpa [Regex.subterms] using .inr inside
  shorter := by simp [Regex.subterms]

/-- An expression lies in another if it is the other or lies in a part of it. -/
theorem eq_or_part {s r : Regex} (member : s ∈ r.subterms) : s = r ∨ ∃ p, PartOf p r ∧ s ∈ p.subterms := by
  cases r with
  | literal | charClass | reference => exact .inl (by simpa [subterms] using member)
  | sequence loc parts =>
    rcases List.mem_cons.mp (by simpa only [subterms] using member) with same | below
    · exact .inl same
    · obtain ⟨p, part, inside⟩ := mem_subtermsOfAll.mp below
      exact .inr ⟨p, partOf_sequence part, inside⟩
  | choice loc alternatives =>
    rcases List.mem_cons.mp (by simpa only [subterms] using member) with same | below
    · exact .inl same
    · obtain ⟨p, part, inside⟩ := mem_subtermsOfAll.mp below
      exact .inr ⟨p, partOf_choice part, inside⟩
  | repetition loc body least most =>
    rcases List.mem_cons.mp (by simpa only [subterms] using member) with same | below
    · exact .inl same
    · exact .inr ⟨body, partOf_repetition, below⟩

theorem subterms_subset {s r : Regex} (member : s ∈ r.subterms) : s.subterms ⊆ r.subterms := by
  rcases eq_or_part member with rfl | ⟨p, part, inside⟩
  · exact List.Subset.refl _
  · exact List.Subset.trans (subterms_subset inside) part.subterms
termination_by r.subterms.length
decreasing_by exact part.shorter

theorem PartOf.references {p r : Regex} (part : PartOf p r) : p.references ⊆ r.references := by
  intro label member
  simp only [Regex.references, List.mem_filterMap] at member ⊢
  obtain ⟨s, inside, same⟩ := member
  exact ⟨s, part.subterms inside, same⟩

theorem references_subset {s r : Regex} (inside : s ∈ r.subterms) : s.references ⊆ r.references :=
  List.filterMap_subset _ (subterms_subset inside)

theorem label_mem_references {loc : Location} {label : String} : label ∈ (reference loc label).references :=
  List.mem_singleton.mpr rfl

end Regex

end TokenTables
