import TokenTables.Proofs.Text.CodeRange
import TokenTables.Text.Case

/-!
Case forms: which characters they are, that they stay within the Basic Multilingual Plane, and which lead into ASCII.
-/

namespace TokenTables.Text

theorem mem_caseForms {c v : Char} : v ∈ caseForms c ↔ v = c ∨ v = toLower c ∨ v = toUpper c := by
  simp [caseForms, List.mem_eraseDups]

/-- No run of the tables leads out of the Basic Multilingual Plane. -/
theorem image_le : ∀ run ∈ lowerRuns ++ upperRuns, (run.last : Int) + run.shift ≤ lastCode := by
  decide +kernel

theorem toNat_ofNat_le (code : Nat) : (Char.ofNat code).toNat ≤ code := by
  unfold Char.ofNat
  by_cases valid : code.isValidChar
  · rw [dif_pos valid]
    exact Nat.le_of_eq rfl
  · rw [dif_neg valid]
    exact Nat.zero_le _

theorem shifted_le {runs : List CaseRun} (sub : runs ⊆ lowerRuns ++ upperRuns) {c : Char}
    (small : c.toNat ≤ lastCode) : (shifted runs c).toNat ≤ lastCode := by
  unfold shifted
  cases found : runs.find? (·.covers c.toNat) with
  | none => exact small
  | some run =>
    have inside := List.find?_some found
    have bounded := image_le run (sub (List.mem_of_find?_eq_some found))
    simp only [CaseRun.covers, Bool.and_eq_true, decide_eq_true_eq] at inside
    have low : run.image c.toNat ≤ lastCode := by
      unfold CaseRun.image
      omega
    exact Nat.le_trans (toNat_ofNat_le _) low

theorem asciiLower_lt {c : Char} (small : c.toNat < 0x80) : c.toLower.toNat < 0x80 := by
  have all : ∀ code < 0x80, (Char.ofNat code).toLower.toNat < 0x80 := by decide +kernel
  have here := all c.toNat small
  rwa [Char.ofNat_toNat] at here

theorem asciiUpper_lt {c : Char} (small : c.toNat < 0x80) : c.toUpper.toNat < 0x80 := by
  have all : ∀ code < 0x80, (Char.ofNat code).toUpper.toNat < 0x80 := by decide +kernel
  have here := all c.toNat small
  rwa [Char.ofNat_toNat] at here

theorem caseForms_le {c v : Char} (small : c.toNat ≤ lastCode) (form : v ∈ caseForms c) :
    v.toNat ≤ lastCode := by
  have ascii : (0x80 : Nat) ≤ lastCode := by decide
  rcases mem_caseForms.mp form with rfl | rfl | rfl
  · exact small
  · unfold toLower
    split
    · exact Nat.le_trans (Nat.le_of_lt (asciiLower_lt ‹_›)) ascii
    · exact shifted_le (List.subset_append_left _ _) small
  · unfold toUpper
    split
    · exact Nat.le_trans (Nat.le_of_lt (asciiUpper_lt ‹_›)) ascii
    · exact shifted_le (List.subset_append_right _ _) small

/-! ### ASCII -/

/-- The characters outside ASCII that have a case form in ASCII: the dotless i, the long s and the Kelvin sign. -/
def foldedIntoAscii : List Char := ['\u0131', '\u017F', '\u212A']

/-- Runs lead to characters, and into ASCII only from the three. -/
theorem image_ascii : ∀ run ∈ lowerRuns ++ upperRuns,
    ((run.last : Int) + run.shift < 0xD800 ∨ (0xDFFF : Int) < run.first + run.shift) ∧
      ((run.first : Int) + run.shift < 0x80 → run.first = run.last ∧ Char.ofNat run.first ∈ foldedIntoAscii) := by
  decide +kernel

theorem shifted_ascii {runs : List CaseRun} (sub : runs ⊆ lowerRuns ++ upperRuns) {c : Char} (large : 0x80 ≤ c.toNat)
    (small : (shifted runs c).toNat < 0x80) : c ∈ foldedIntoAscii := by
  unfold shifted at small
  cases found : runs.find? (·.covers c.toNat) with
  | none =>
    rw [found] at small
    exact absurd small (Nat.not_lt.mpr large)
  | some run =>
    rw [found] at small
    have member := sub (List.mem_of_find?_eq_some found)
    have inside := List.find?_some found
    obtain ⟨valid, ascii⟩ := image_ascii run member
    have bounded := image_le run member
    simp only [CaseRun.covers, Bool.and_eq_true, decide_eq_true_eq] at inside
    have isChar : (run.image c.toNat).isValidChar := by
      simp only [Nat.isValidChar, CaseRun.image, lastCode] at bounded ⊢
      omega
    have low : run.image c.toNat < 0x80 := by
      dsimp only at small
      unfold Char.ofNat at small
      rwa [dif_pos isChar] at small
    obtain ⟨single, member⟩ := ascii (by simp only [CaseRun.image] at low; omega)
    have same : c.toNat = run.first := by omega
    rwa [← same, Char.ofNat_toNat] at member

/-- In ASCII each character is one of its two case forms, and either gives the other. -/
theorem ascii_forms {c : Char} (small : c.toNat < 0x80) :
    (c = toLower c ∨ c = toUpper (toLower c)) ∧ (c = toUpper c ∨ c = toLower (toUpper c)) ∧
      toUpper (toLower c) = toUpper c ∧ toLower (toUpper c) = toLower c := by
  have all : ∀ code < 0x80, let c := Char.ofNat code
      (c = toLower c ∨ c = toUpper (toLower c)) ∧ (c = toUpper c ∨ c = toLower (toUpper c)) ∧
        toUpper (toLower c) = toUpper c ∧ toLower (toUpper c) = toLower c := by decide +kernel
  have here := all c.toNat small
  rwa [Char.ofNat_toNat] at here

/-- A character that is the same as one of ASCII but for case is a case form of it, or is one of the three. -/
theorem form_of_ascii {a b : Char} (same : sameButForCase a b = true) (small : b.toNat < 0x80) :
    a ∈ caseForms b ∨ a ∈ foldedIntoAscii := by
  simp only [sameButForCase, Bool.or_eq_true, beq_iff_eq] at same
  by_cases ascii : a.toNat < 0x80
  · refine .inl (mem_caseForms.mpr ?_)
    obtain ⟨lower, upper, _, _⟩ := ascii_forms ascii
    obtain ⟨_, _, upperOfLower, lowerOfUpper⟩ := ascii_forms small
    rcases same with (rfl | sameLower) | sameUpper
    · exact .inl rfl
    · rw [sameLower, upperOfLower] at lower
      exact .inr lower
    · rw [sameUpper, lowerOfUpper] at upper
      exact .inr upper.symm
  · have large : 0x80 ≤ a.toNat := Nat.le_of_not_lt ascii
    refine .inr ?_
    rcases same with (rfl | sameLower) | sameUpper
    · exact absurd small ascii
    · have form : (toLower b).toNat < 0x80 := by
        rw [toLower, if_pos small]
        exact asciiLower_lt small
      rw [← sameLower, toLower, if_neg ascii] at form
      exact shifted_ascii (List.subset_append_left _ _) large form
    · have form : (toUpper b).toNat < 0x80 := by
        rw [toUpper, if_pos small]
        exact asciiUpper_lt small
      rw [← sameUpper, toUpper, if_neg ascii] at form
      exact shifted_ascii (List.subset_append_right _ _) large form

end TokenTables.Text
