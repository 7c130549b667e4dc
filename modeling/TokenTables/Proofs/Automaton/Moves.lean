import TokenTables.Automaton.Moves
import TokenTables.Proofs.CodeSet
import TokenTables.Proofs.Ordered
import TokenTables.Proofs.Text.CodeRange

/-!
What moves accept. Each way of adding to moves adds exactly the codes it names, and moves that keep ASCII
apart from the rest are empty just when they accept nothing.
-/

namespace TokenTables.Automaton.Moves

open Text (CodeRange)
open Text.CodeRange (Covers)

/-- The lists hold codes outside ASCII only, and no range is empty. -/
structure Valid (m : Moves) : Prop where
  singles : ∀ code ∈ m.singles, asciiEnd ≤ code
  ranges : ∀ r ∈ m.ranges, asciiEnd ≤ r.first ∧ r.first ≤ r.last

theorem valid_empty : ({} : Moves).Valid := ⟨by simp, by simp⟩

@[simp] theorem acceptsCode_empty {code : Nat} : ({} : Moves).acceptsCode code = false := by
  simp [acceptsCode]

theorem acceptsCode_iff {m : Moves} (valid : m.Valid) {code : Nat} :
    m.acceptsCode code = true ↔
      m.ascii.contains code = true ∨ code ∈ m.singles ∨ Covers m.ranges code := by
  unfold acceptsCode
  split
  · rename_i small
    constructor
    · exact .inl
    · rintro (inAscii | inSingles | ⟨r, member, holds⟩)
      · exact inAscii
      · have := valid.singles code inSingles
        omega
      · have := valid.ranges r member
        have := Text.CodeRange.contains_iff.mp holds
        omega
  · rename_i large
    simp only [Bool.or_eq_true, List.contains_iff_mem, List.any_eq_true]
    constructor
    · exact .inr
    · rintro (inAscii | rest)
      · exact absurd (CodeSet.lt_of_contains inAscii) large
      · exact rest

/-! ### Adding codes -/

theorem valid_addCode {m : Moves} (valid : m.Valid) (code : Nat) : (m.addCode code).Valid := by
  unfold addCode
  split
  · exact ⟨valid.singles, valid.ranges⟩
  · refine ⟨fun other member => ?_, valid.ranges⟩
    rcases mem_insertNat.mp member with rfl | old
    · omega
    · exact valid.singles other old

theorem acceptsCode_addCode {m : Moves} (valid : m.Valid) {added code : Nat} :
    (m.addCode added).acceptsCode code = true ↔ code = added ∨ m.acceptsCode code = true := by
  rw [acceptsCode_iff (valid_addCode valid added), acceptsCode_iff valid]
  unfold addCode
  split
  · rename_i small
    rw [CodeSet.contains_insert small, or_assoc]
  · rw [mem_insertNat]
    grind

theorem valid_foldl_addCode {codes : List Nat} {m : Moves} (valid : m.Valid) :
    (codes.foldl addCode m).Valid := by
  induction codes generalizing m with
  | nil => exact valid
  | cons code rest ih => exact ih (valid_addCode valid code)

theorem acceptsCode_foldl_addCode {codes : List Nat} {m : Moves} (valid : m.Valid) {code : Nat} :
    (codes.foldl addCode m).acceptsCode code = true ↔ code ∈ codes ∨ m.acceptsCode code = true := by
  induction codes generalizing m with
  | nil => simp
  | cons first rest ih =>
    rw [List.foldl_cons, ih (valid_addCode valid first), acceptsCode_addCode valid, List.mem_cons, or_assoc,
      or_left_comm]

/-! ### Adding ranges -/

theorem covers_insertOrdered {le : CodeRange → CodeRange → Bool} {r : CodeRange} {ranges : List CodeRange}
    {code : Nat} :
    Covers (insertOrdered le r ranges) code ↔ r.contains code = true ∨ Covers ranges code := by
  simp only [Covers, mem_insertOrdered]
  constructor
  · rintro ⟨other, rfl | old, holds⟩
    · exact .inl holds
    · exact .inr ⟨other, old, holds⟩
  · rintro (holds | ⟨other, old, holds⟩)
    · exact ⟨r, .inl rfl, holds⟩
    · exact ⟨other, .inr old, holds⟩

/-- The part of a range inside ASCII. -/
def addAscii (m : Moves) (r : CodeRange) : Moves :=
  { m with ascii := m.ascii.insertRange r.first (min r.last (asciiEnd - 1)) }

/-- The part of a range outside ASCII, if it is more than one code. -/
def addBeyond (m : Moves) (r : CodeRange) : Moves :=
  { m with ranges := insertOrdered CodeRange.before r m.ranges }

theorem addRange_eq (m : Moves) (r : CodeRange) :
    m.addRange r =
      if r.last < r.first then m
      else if r.last < asciiEnd then m.addAscii r
      else if max r.first asciiEnd = r.last then (m.addAscii r).addCode r.last
      else (m.addAscii r).addBeyond ⟨max r.first asciiEnd, r.last⟩ := by
  unfold addRange addAscii addBeyond
  split
  · rfl
  · split
    · rfl
    · by_cases one : max r.first asciiEnd = r.last
      · simp [one]
      · simp [one]

theorem valid_addAscii {m : Moves} (valid : m.Valid) (r : CodeRange) : (m.addAscii r).Valid :=
  ⟨valid.singles, valid.ranges⟩

theorem acceptsCode_addAscii {m : Moves} (valid : m.Valid) {r : CodeRange} {code : Nat} :
    (m.addAscii r).acceptsCode code = true ↔
      (r.first ≤ code ∧ code ≤ min r.last (asciiEnd - 1)) ∨ m.acceptsCode code = true := by
  rw [acceptsCode_iff (valid_addAscii valid r), acceptsCode_iff valid, addAscii,
    CodeSet.contains_insertRange (by unfold asciiEnd; omega), or_assoc]

theorem valid_addBeyond {m : Moves} (valid : m.Valid) {r : CodeRange} (beyond : asciiEnd ≤ r.first)
    (proper : r.first ≤ r.last) : (m.addBeyond r).Valid := by
  refine ⟨valid.singles, fun other member => ?_⟩
  rcases mem_insertOrdered.mp member with rfl | old
  · exact ⟨beyond, proper⟩
  · exact valid.ranges other old

theorem acceptsCode_addBeyond {m : Moves} (valid : m.Valid) {r : CodeRange} {code : Nat}
    (beyond : asciiEnd ≤ r.first) (proper : r.first ≤ r.last) :
    (m.addBeyond r).acceptsCode code = true ↔ r.contains code = true ∨ m.acceptsCode code = true := by
  rw [acceptsCode_iff (valid_addBeyond valid beyond proper), acceptsCode_iff valid, addBeyond,
    covers_insertOrdered]
  grind

theorem valid_addRange {m : Moves} (valid : m.Valid) (r : CodeRange) : (m.addRange r).Valid := by
  rw [addRange_eq]
  split
  · exact valid
  · split
    · exact valid_addAscii valid r
    · split
      · exact valid_addCode (valid_addAscii valid r) _
      · exact valid_addBeyond (valid_addAscii valid r) (Nat.le_max_right _ _) (by dsimp only; omega)

theorem acceptsCode_addRange {m : Moves} (valid : m.Valid) {r : CodeRange} {code : Nat} :
    (m.addRange r).acceptsCode code = true ↔ r.contains code = true ∨ m.acceptsCode code = true := by
  rw [addRange_eq, Text.CodeRange.contains_iff]
  split
  · have empty : ¬ (r.first ≤ code ∧ code ≤ r.last) := by omega
    simp [empty]
  · split
    · have same : (r.first ≤ code ∧ code ≤ min r.last (asciiEnd - 1)) ↔ r.first ≤ code ∧ code ≤ r.last := by
        omega
      rw [acceptsCode_addAscii valid, same]
    · have parts : (r.first ≤ code ∧ code ≤ r.last) ↔ (max r.first asciiEnd ≤ code ∧ code ≤ r.last) ∨
          (r.first ≤ code ∧ code ≤ min r.last (asciiEnd - 1)) := by
        unfold asciiEnd at *
        omega
      split
      · have last : code = r.last ↔ max r.first asciiEnd ≤ code ∧ code ≤ r.last := by omega
        rw [acceptsCode_addCode (valid_addAscii valid r), acceptsCode_addAscii valid, last, parts, or_assoc]
      · rw [acceptsCode_addBeyond (valid_addAscii valid r) (Nat.le_max_right _ _) (by dsimp only; omega),
          acceptsCode_addAscii valid, Text.CodeRange.contains_iff, parts, or_assoc]

theorem valid_addRanges {ranges : List CodeRange} {m : Moves} (valid : m.Valid) :
    (m.addRanges ranges).Valid := by
  induction ranges generalizing m with
  | nil => exact valid
  | cons r rest ih => exact ih (valid_addRange valid r)

theorem acceptsCode_addRanges {ranges : List CodeRange} {m : Moves} (valid : m.Valid) {code : Nat} :
    (m.addRanges ranges).acceptsCode code = true ↔ Covers ranges code ∨ m.acceptsCode code = true := by
  induction ranges generalizing m with
  | nil => simp [addRanges, Text.CodeRange.not_covers_nil]
  | cons r rest ih =>
    rw [addRanges, List.foldl_cons]
    refine (ih (valid_addRange valid r)).trans ?_
    rw [acceptsCode_addRange valid, Text.CodeRange.covers_cons, or_assoc, or_left_comm]

/-! ### Uniting moves -/

/-- The ASCII part of both. -/
def uniteAscii (m other : Moves) : Moves := { m with ascii := m.ascii ||| other.ascii }

theorem acceptsCode_uniteAscii {m other : Moves} (valid : m.Valid) {code : Nat} :
    (m.uniteAscii other).acceptsCode code = true ↔
      m.acceptsCode code = true ∨ other.ascii.contains code = true := by
  have joined : (m.uniteAscii other).Valid := ⟨valid.singles, valid.ranges⟩
  have ascii : (m.uniteAscii other).ascii.contains code = true ↔
      m.ascii.contains code = true ∨ other.ascii.contains code = true := by
    simp only [uniteAscii, CodeSet.contains, BitVec.getLsbD_or, Bool.or_eq_true]
  rw [acceptsCode_iff joined, acceptsCode_iff valid, ascii]
  simp only [uniteAscii]
  grind

theorem union_eq (m other : Moves) :
    m.union other = ((other.singles.foldl addCode (m.uniteAscii other)).addRanges other.ranges) := rfl

theorem valid_union {m other : Moves} (valid : m.Valid) : (m.union other).Valid := by
  rw [union_eq]
  exact valid_addRanges (valid_foldl_addCode ⟨valid.singles, valid.ranges⟩)

theorem acceptsCode_union {m other : Moves} (valid : m.Valid) (otherValid : other.Valid) {code : Nat} :
    (m.union other).acceptsCode code = true ↔ m.acceptsCode code = true ∨ other.acceptsCode code = true := by
  have joined : (m.uniteAscii other).Valid := ⟨valid.singles, valid.ranges⟩
  rw [union_eq, acceptsCode_addRanges (valid_foldl_addCode joined), acceptsCode_foldl_addCode joined,
    acceptsCode_uniteAscii valid, acceptsCode_iff otherValid]
  grind

/-! ### Emptiness -/

theorem isEmpty_iff {m : Moves} (valid : m.Valid) : m.isEmpty = true ↔ ∀ code, m.acceptsCode code = false := by
  constructor
  · intro empty code
    simp only [isEmpty, Bool.and_eq_true, beq_iff_eq, List.isEmpty_iff] at empty
    obtain ⟨⟨ascii, singles⟩, ranges⟩ := empty
    simp [acceptsCode, ascii, singles, ranges]
  · intro refuses
    have none : ∀ code, ¬ (m.ascii.contains code = true ∨ code ∈ m.singles ∨ Covers m.ranges code) := by
      intro code
      rw [← acceptsCode_iff valid, refuses code]
      exact Bool.false_ne_true
    simp only [isEmpty, Bool.and_eq_true, beq_iff_eq, List.isEmpty_iff]
    refine ⟨⟨CodeSet.eq_empty_iff.mpr fun code => ?_, ?_⟩, ?_⟩
    · exact Bool.eq_false_iff.mpr fun holds => none code (.inl holds)
    · exact List.eq_nil_iff_forall_not_mem.mpr fun code member => none code (.inr (.inl member))
    · refine List.eq_nil_iff_forall_not_mem.mpr fun r member => none r.first (.inr (.inr ⟨r, member, ?_⟩))
      exact Text.CodeRange.contains_iff.mpr ⟨Nat.le_refl _, (valid.ranges r member).2⟩

end TokenTables.Automaton.Moves
