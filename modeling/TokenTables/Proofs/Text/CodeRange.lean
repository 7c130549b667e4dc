import TokenTables.Text.CodeRange

/-!
What lists of code ranges cover. Normalizing changes nothing and leaves gaps, complementing a normalized
list turns it around below the last code, and cutting out the surrogate block loses no character.
-/

namespace TokenTables.Text.CodeRange

theorem contains_iff {r : CodeRange} {code : Nat} :
    r.contains code = true ↔ r.first ≤ code ∧ code ≤ r.last := by
  simp [contains]

/-- Some range of the list holds the code. -/
def Covers (ranges : List CodeRange) (code : Nat) : Prop := ∃ r ∈ ranges, r.contains code = true

theorem not_covers_nil {code : Nat} : ¬ Covers [] code := by
  rintro ⟨r, member, _⟩
  cases member

theorem covers_cons {r : CodeRange} {rest : List CodeRange} {code : Nat} :
    Covers (r :: rest) code ↔ r.contains code = true ∨ Covers rest code := by
  simp [Covers]

theorem covers_append {xs ys : List CodeRange} {code : Nat} :
    Covers (xs ++ ys) code ↔ Covers xs code ∨ Covers ys code := by
  simp only [Covers, List.mem_append]
  constructor
  · rintro ⟨r, inX | inY, holds⟩
    · exact .inl ⟨r, inX, holds⟩
    · exact .inr ⟨r, inY, holds⟩
  · rintro (⟨r, inX, holds⟩ | ⟨r, inY, holds⟩)
    · exact ⟨r, .inl inX, holds⟩
    · exact ⟨r, .inr inY, holds⟩

theorem covers_flatMap {α : Type} {xs : List α} {f : α → List CodeRange} {code : Nat} :
    Covers (xs.flatMap f) code ↔ ∃ x ∈ xs, Covers (f x) code := by
  simp only [Covers, List.mem_flatMap]
  constructor
  · rintro ⟨r, ⟨x, inX, inF⟩, holds⟩
    exact ⟨x, inX, r, inF, holds⟩
  · rintro ⟨x, inX, r, inF, holds⟩
    exact ⟨r, ⟨x, inX, inF⟩, holds⟩

/-- No range of the list is empty. -/
def Proper (ranges : List CodeRange) : Prop := ∀ r ∈ ranges, r.first ≤ r.last

/-- The list ascends, and between two ranges at least one code is left out. -/
def Gapped (ranges : List CodeRange) : Prop := ranges.Pairwise fun a b => a.last + 1 < b.first

/-! ### Normalizing -/

theorem covers_coalesce {ranges : List CodeRange} {code : Nat}
    (ascending : ranges.Pairwise fun a b => a.first ≤ b.first) :
    Covers (coalesce ranges) code ↔ Covers ranges code := by
  induction ranges using coalesce.induct with
  | case1 => simp [coalesce]
  | case2 r => simp [coalesce]
  | case3 a b rest touching ih =>
    obtain ⟨first, others⟩ := List.pairwise_cons.mp ascending
    obtain ⟨second, rest'⟩ := List.pairwise_cons.mp others
    have le : a.first ≤ b.first := first b List.mem_cons_self
    have joined : (⟨a.first, max a.last b.last⟩ :: rest : List CodeRange).Pairwise
        fun a b => a.first ≤ b.first :=
      List.pairwise_cons.mpr ⟨fun r member => first r (List.mem_cons_of_mem _ member), rest'⟩
    rw [coalesce, if_pos touching, ih joined]
    simp only [covers_cons, contains_iff]
    have both : (a.first ≤ code ∧ code ≤ max a.last b.last) ↔
        (a.first ≤ code ∧ code ≤ a.last) ∨ (b.first ≤ code ∧ code ≤ b.last) := by omega
    rw [both]
    grind
  | case4 a b rest apart ih =>
    rw [coalesce, if_neg apart, covers_cons, ih (List.pairwise_cons.mp ascending).2]
    exact covers_cons.symm

theorem coalesce_first_le {a : CodeRange} {rest : List CodeRange}
    (ascending : (a :: rest).Pairwise fun a b => a.first ≤ b.first) :
    ∀ r ∈ coalesce (a :: rest), a.first ≤ r.first := by
  induction rest generalizing a with
  | nil => simp [coalesce]
  | cons b tail ih =>
    obtain ⟨first, others⟩ := List.pairwise_cons.mp ascending
    rw [coalesce]
    split
    · exact ih (a := ⟨a.first, max a.last b.last⟩) <| List.pairwise_cons.mpr
        ⟨fun r member => first r (List.mem_cons_of_mem _ member), (List.pairwise_cons.mp others).2⟩
    · intro r member
      rcases List.mem_cons.mp member with rfl | later
      · exact Nat.le_refl _
      · exact Nat.le_trans (first b List.mem_cons_self) (ih others r later)

theorem coalesce_gapped {ranges : List CodeRange}
    (ascending : ranges.Pairwise fun a b => a.first ≤ b.first) (proper : Proper ranges) :
    Gapped (coalesce ranges) ∧ Proper (coalesce ranges) := by
  induction ranges using coalesce.induct with
  | case1 => exact ⟨by simp [coalesce, Gapped], by simp [coalesce, Proper]⟩
  | case2 r => exact ⟨by simp [coalesce, Gapped], by simpa [coalesce] using proper⟩
  | case3 a b rest touching ih =>
    obtain ⟨first, others⟩ := List.pairwise_cons.mp ascending
    rw [coalesce, if_pos touching]
    apply ih
    · exact List.pairwise_cons.mpr ⟨fun r member => first r (List.mem_cons_of_mem _ member),
        (List.pairwise_cons.mp others).2⟩
    · intro r member
      rcases List.mem_cons.mp member with rfl | later
      · have := proper a List.mem_cons_self
        show a.first ≤ max a.last b.last
        omega
      · exact proper r (List.mem_cons_of_mem _ (List.mem_cons_of_mem _ later))
  | case4 a b rest apart ih =>
    obtain ⟨_, others⟩ := List.pairwise_cons.mp ascending
    obtain ⟨gapped, filled⟩ := ih others fun r member => proper r (List.mem_cons_of_mem _ member)
    rw [coalesce, if_neg apart]
    refine ⟨List.pairwise_cons.mpr ⟨fun r member => ?_, gapped⟩, fun r member => ?_⟩
    · have := coalesce_first_le others r member
      omega
    · rcases List.mem_cons.mp member with rfl | later
      · exact proper _ List.mem_cons_self
      · exact filled r later

theorem before_trans {a b c : CodeRange} (ab : before a b = true) (bc : before b c = true) :
    before a c = true := by
  simp only [before, Bool.or_eq_true, decide_eq_true_eq, Bool.and_eq_true, beq_iff_eq] at *
  omega

theorem before_total (a b : CodeRange) : (before a b || before b a) = true := by
  simp only [before, Bool.or_eq_true, decide_eq_true_eq, Bool.and_eq_true, beq_iff_eq]
  omega

theorem sorted_first_le (ranges : List CodeRange) :
    (ranges.mergeSort before).Pairwise fun a b => a.first ≤ b.first := by
  have sorted : (ranges.mergeSort before).Pairwise fun a b => before a b = true := by
    apply List.pairwise_mergeSort
    · exact fun a b c => before_trans
    · exact before_total
  refine sorted.imp fun {a b} le => ?_
  simp only [before, Bool.or_eq_true, decide_eq_true_eq, Bool.and_eq_true, beq_iff_eq] at le
  omega

theorem covers_normalize {ranges : List CodeRange} {code : Nat} :
    Covers (normalize ranges) code ↔ Covers ranges code := by
  rw [normalize, covers_coalesce (sorted_first_le ranges)]
  simp [Covers, List.mem_mergeSort]

theorem normalize_gapped {ranges : List CodeRange} (proper : Proper ranges) :
    Gapped (normalize ranges) ∧ Proper (normalize ranges) :=
  coalesce_gapped (sorted_first_le ranges) fun r member => proper r (List.mem_mergeSort.mp member)

theorem coalesce_le {ranges : List CodeRange} {bound : Nat} (bounded : ∀ r ∈ ranges, r.last ≤ bound) :
    ∀ r ∈ coalesce ranges, r.last ≤ bound := by
  induction ranges using coalesce.induct with
  | case1 => simp [coalesce]
  | case2 r => simpa [coalesce] using bounded
  | case3 a b rest touching ih =>
    rw [coalesce, if_pos touching]
    refine ih fun r member => ?_
    rcases List.mem_cons.mp member with rfl | later
    · exact Nat.max_le.mpr ⟨bounded a (by simp), bounded b (by simp)⟩
    · exact bounded r (by simp [later])
  | case4 a b rest apart ih =>
    rw [coalesce, if_neg apart]
    intro r member
    rcases List.mem_cons.mp member with rfl | later
    · exact bounded _ List.mem_cons_self
    · exact ih (fun q inside => bounded q (List.mem_cons_of_mem _ inside)) r later

/-- Normalizing keeps within a bound. -/
theorem normalize_le {ranges : List CodeRange} {bound : Nat} (bounded : ∀ r ∈ ranges, r.last ≤ bound) :
    ∀ r ∈ normalize ranges, r.last ≤ bound :=
  coalesce_le fun r member => bounded r (List.mem_mergeSort.mp member)

/-! ### Complements -/

theorem complementFrom_le {start : Nat} {ranges : List CodeRange} (proper : Proper ranges)
    (bounded : ∀ r ∈ ranges, r.last ≤ lastCode) : ∀ r ∈ complementFrom start ranges, r.last ≤ lastCode := by
  induction ranges generalizing start with
  | nil =>
    unfold complementFrom
    split
    · simp
    · simp
  | cons q rest ih =>
    have tail := @ih (q.last + 1) (fun r member => proper r (List.mem_cons_of_mem _ member))
      fun r member => bounded r (List.mem_cons_of_mem _ member)
    have filled := proper q List.mem_cons_self
    have high := bounded q List.mem_cons_self
    unfold complementFrom
    split
    · intro r member
      rcases List.mem_cons.mp member with rfl | later
      · show q.first - 1 ≤ lastCode
        omega
      · exact tail r later
    · exact tail

theorem covers_complementFrom {start : Nat} {ranges : List CodeRange} {code : Nat}
    (gapped : Gapped ranges) (proper : Proper ranges) (above : ∀ r ∈ ranges, start ≤ r.first)
    (bounded : ∀ r ∈ ranges, r.last ≤ lastCode) :
    Covers (complementFrom start ranges) code ↔
      start ≤ code ∧ code ≤ lastCode ∧ ¬ Covers ranges code := by
  induction ranges generalizing start with
  | nil =>
    unfold complementFrom
    split
    · simp [covers_cons, contains_iff, not_covers_nil]
    · simp only [not_covers_nil, not_false_eq_true, and_true, false_iff]
      omega
  | cons r rest ih =>
    obtain ⟨apart, gappedRest⟩ := List.pairwise_cons.mp gapped
    have low := above r List.mem_cons_self
    have filled := proper r List.mem_cons_self
    have high := bounded r List.mem_cons_self
    have tail := @ih (r.last + 1) gappedRest
      (fun q member => proper q (List.mem_cons_of_mem _ member))
      (fun q member => by have := apart q member; omega)
      (fun q member => bounded q (List.mem_cons_of_mem _ member))
    have restAbove : Covers rest code → r.last + 1 < code := by
      rintro ⟨q, member, holds⟩
      have := apart q member
      have := (contains_iff.mp holds).1
      omega
    unfold complementFrom
    split
    · rw [covers_cons, tail, covers_cons, contains_iff, contains_iff]
      by_cases later : Covers rest code
      · have := restAbove later
        simp only [later, not_true_eq_false, and_false, or_true, or_false, iff_false]
        omega
      · simp only [later, not_false_eq_true, and_true, or_false]
        omega
    · rw [tail, covers_cons, contains_iff]
      by_cases later : Covers rest code
      · have := restAbove later
        simp only [later, not_true_eq_false, and_false, or_true]
      · simp only [later, not_false_eq_true, and_true, or_false]
        omega

theorem covers_complement {ranges : List CodeRange} {code : Nat} (gapped : Gapped ranges)
    (proper : Proper ranges) (bounded : ∀ r ∈ ranges, r.last ≤ lastCode) :
    Covers (complement ranges) code ↔ code ≤ lastCode ∧ ¬ Covers ranges code := by
  rw [complement, covers_complementFrom gapped proper (fun _ _ => Nat.zero_le _) bounded]
  simp

/-! ### Characters -/

theorem toNat_not_surrogate (c : Char) : c.toNat < 0xD800 ∨ 0xDFFF < c.toNat := by
  have valid := c.valid
  unfold UInt32.isValidChar Nat.isValidChar at valid
  have same : c.val.toNat = c.toNat := rfl
  omega

theorem covers_outsideSurrogates {r : CodeRange} {code : Nat} (ordinary : code < 0xD800 ∨ 0xDFFF < code) :
    Covers r.outsideSurrogates code ↔ r.contains code = true := by
  unfold outsideSurrogates
  rw [covers_append, contains_iff]
  have below : Covers (if r.first < 0xD800 then [⟨r.first, min r.last 0xD7FF⟩] else []) code ↔
      r.first < 0xD800 ∧ r.first ≤ code ∧ code ≤ min r.last 0xD7FF := by
    split
    · simp_all [covers_cons, contains_iff, not_covers_nil]
    · simp only [not_covers_nil, false_iff]
      omega
  have above : Covers (if 0xDFFF < r.last then [⟨max r.first 0xE000, r.last⟩] else []) code ↔
      0xDFFF < r.last ∧ max r.first 0xE000 ≤ code ∧ code ≤ r.last := by
    split
    · simp_all [covers_cons, contains_iff, not_covers_nil]
    · simp only [not_covers_nil, false_iff]
      omega
  rw [below, above]
  omega

theorem outsideSurrogates_le {r part : CodeRange} (member : part ∈ r.outsideSurrogates) : part.last ≤ r.last := by
  unfold outsideSurrogates at member
  rcases List.mem_append.mp member with low | high
  · split at low
    · obtain rfl := List.mem_singleton.mp low
      exact Nat.min_le_left _ _
    · cases low
  · split at high
    · obtain rfl := List.mem_singleton.mp high
      exact Nat.le_refl _
    · cases high

theorem outsideSurrogates_ordinary {r part : CodeRange} {code : Nat} (member : part ∈ r.outsideSurrogates)
    (holds : part.contains code = true) : (code < 0xD800 ∨ 0xDFFF < code) ∧ code ≤ r.last := by
  rw [contains_iff] at holds
  unfold outsideSurrogates at member
  rcases List.mem_append.mp member with low | high
  · split at low
    · obtain rfl := List.mem_singleton.mp low
      simp only at holds
      omega
    · cases low
  · split at high
    · obtain rfl := List.mem_singleton.mp high
      simp only at holds
      omega
    · cases high

theorem toNat_ofNat {code : Nat} (small : code < 0x110000) (ordinary : code < 0xD800 ∨ 0xDFFF < code) :
    (Char.ofNat code).toNat = code := by
  have valid : code.isValidChar := by
    unfold Nat.isValidChar
    omega
  unfold Char.ofNat
  rw [dif_pos valid]
  rfl

theorem mem_chars {r : CodeRange} {c : Char} (bounded : r.last < 0x110000) :
    c ∈ r.chars ↔ r.contains c.toNat = true := by
  rw [← covers_outsideSurrogates (toNat_not_surrogate c)]
  unfold chars
  simp only [List.mem_flatMap, List.mem_map, List.mem_range'_1, Covers]
  constructor
  · rintro ⟨part, member, code, within, rfl⟩
    have holds : part.contains code = true := contains_iff.mpr (by omega)
    obtain ⟨ordinary, small⟩ := outsideSurrogates_ordinary member holds
    rw [toNat_ofNat (by omega) ordinary]
    exact ⟨part, member, holds⟩
  · rintro ⟨part, member, holds⟩
    rw [contains_iff] at holds
    exact ⟨part, member, c.toNat, by omega, Char.ofNat_toNat c⟩

end TokenTables.Text.CodeRange
