import TokenTables.Automaton.CharRanges
import TokenTables.Proofs.Text.Case
import TokenTables.Regex.Language

/-!
The ranges computed for a class hold exactly the characters the class accepts.
-/

namespace TokenTables.Automaton

open Text (CodeRange lastCode)
open Text.CodeRange (Covers Proper covers_append covers_flatMap contains_iff)

/-- Every item is in order and ends in the Basic Multilingual Plane. -/
def Admitted (cls : CharClass) : Prop := ∀ item ∈ cls.items, item.first ≤ item.last ∧ item.last.toNat ≤ lastCode

/-- The ranges of the items as written. -/
def writtenRanges (cls : CharClass) : List CodeRange :=
  cls.items.map fun item => ⟨item.first.toNat, item.last.toNat⟩

theorem covers_writtenRanges {cls : CharClass} {c : Char} :
    Covers (writtenRanges cls) c.toNat ↔ ∃ item ∈ cls.items, item.contains c = true := by
  have same : ∀ item : ClassPart, (CodeRange.mk item.first.toNat item.last.toNat).contains c.toNat = true ↔
      item.contains c = true := by
    intro item
    rw [contains_iff, ClassPart.contains, Bool.and_eq_true, decide_eq_true_eq, decide_eq_true_eq]
    exact Iff.rfl
  constructor
  · rintro ⟨r, member, holds⟩
    obtain ⟨item, inside, rfl⟩ := List.mem_map.mp member
    exact ⟨item, inside, (same item).mp holds⟩
  · rintro ⟨item, inside, holds⟩
    exact ⟨_, List.mem_map.mpr ⟨item, inside, rfl⟩, (same item).mpr holds⟩

theorem mem_caseForms_tail {c v : Char} : v ∈ Text.caseForms c ↔ v = c ∨ v ∈ (Text.caseForms c).tail := by
  have head : Text.caseForms c = c :: (Text.caseForms c).tail := by
    simp [Text.caseForms, List.eraseDups_cons]
  rw [head, List.mem_cons, List.tail_cons]

theorem covers_single {code other : Nat} : (CodeRange.single other).contains code = true ↔ code = other := by
  rw [contains_iff]
  show other ≤ code ∧ code ≤ other ↔ code = other
  omega

theorem covers_withCaseForms {ranges : List CodeRange} {c : Char} (bounded : ∀ r ∈ ranges, r.last ≤ lastCode) :
    Covers (withCaseForms ranges) c.toNat ↔
      Covers ranges c.toNat ∨ ∃ x : Char, Covers ranges x.toNat ∧ c ∈ Text.caseForms x := by
  have inRange : ∀ r ∈ ranges, ∀ {x : Char}, x ∈ r.chars ↔ r.contains x.toNat = true := by
    intro r member x
    have small : r.last < 0x110000 := Nat.lt_of_le_of_lt (bounded r member) (by decide)
    exact Text.CodeRange.mem_chars small
  rw [withCaseForms, covers_append]
  constructor
  · rintro (written | added)
    · exact .inl written
    · obtain ⟨r, member, variant⟩ := covers_flatMap.mp added
      obtain ⟨x, inside, part, form, holds⟩ := covers_flatMap.mp variant
      obtain ⟨v, isForm, rfl⟩ := List.mem_map.mp form
      have same : c = v := Char.toNat_inj.mp (covers_single.mp holds)
      exact .inr ⟨x, ⟨r, member, (inRange r member).mp inside⟩, mem_caseForms_tail.mpr (.inr (same ▸ isForm))⟩
  · rintro (written | ⟨x, ⟨r, member, holds⟩, form⟩)
    · exact .inl written
    · rcases mem_caseForms_tail.mp form with rfl | isForm
      · exact .inl ⟨r, member, holds⟩
      · refine .inr (covers_flatMap.mpr ⟨r, member, covers_flatMap.mpr ⟨x, (inRange r member).mpr holds, ?_⟩⟩)
        exact ⟨.single c.toNat, List.mem_map.mpr ⟨c, isForm, rfl⟩, covers_single.mpr rfl⟩

theorem withCaseForms_proper {ranges : List CodeRange} (proper : Proper ranges) :
    Proper (withCaseForms ranges) := by
  intro r member
  rcases List.mem_append.mp member with written | added
  · exact proper r written
  · obtain ⟨_, _, variant⟩ := List.mem_flatMap.mp added
    obtain ⟨x, _, form⟩ := List.mem_flatMap.mp variant
    obtain ⟨v, _, rfl⟩ := List.mem_map.mp form
    exact Nat.le_refl _

theorem withCaseForms_le {ranges : List CodeRange} (bounded : ∀ r ∈ ranges, r.last ≤ lastCode) :
    ∀ r ∈ withCaseForms ranges, r.last ≤ lastCode := by
  intro r member
  rcases List.mem_append.mp member with written | added
  · exact bounded r written
  · obtain ⟨source, inside, variant⟩ := List.mem_flatMap.mp added
    obtain ⟨x, isChar, form⟩ := List.mem_flatMap.mp variant
    obtain ⟨v, isForm, rfl⟩ := List.mem_map.mp form
    have small : source.last < 0x110000 := Nat.lt_of_le_of_lt (bounded source inside) (by decide)
    have holds := (Text.CodeRange.mem_chars small).mp isChar
    have xSmall : x.toNat ≤ lastCode := Nat.le_trans (contains_iff.mp holds).2 (bounded source inside)
    exact Text.caseForms_le xSmall (mem_caseForms_tail.mpr (.inr isForm))

/-- The ranges of a class before it is negated. -/
def namedRanges (ignoreCase : Bool) (cls : CharClass) : List CodeRange :=
  if ignoreCase then withCaseForms (writtenRanges cls) else writtenRanges cls

theorem covers_namedRanges {ignoreCase : Bool} {cls : CharClass} (admitted : Admitted cls) {c : Char} :
    Covers (namedRanges ignoreCase cls) c.toNat ↔ cls.Names ignoreCase c := by
  have bounded : ∀ r ∈ writtenRanges cls, r.last ≤ lastCode := by
    intro r member
    obtain ⟨item, inside, rfl⟩ := List.mem_map.mp member
    exact (admitted item inside).2
  cases ignoreCase with
  | false => simp [namedRanges, covers_writtenRanges, CharClass.Names]
  | true =>
    simp only [namedRanges, if_true, covers_withCaseForms bounded, covers_writtenRanges, CharClass.Names,
      true_and]
    constructor
    · rintro (⟨item, inside, holds⟩ | ⟨x, ⟨item, inside, holds⟩, form⟩)
      · exact ⟨item, inside, .inl holds⟩
      · exact ⟨item, inside, .inr ⟨x, holds, form⟩⟩
    · rintro ⟨item, inside, holds | ⟨x, holds, form⟩⟩
      · exact .inl ⟨item, inside, holds⟩
      · exact .inr ⟨x, ⟨item, inside, holds⟩, form⟩

theorem namedRanges_proper {ignoreCase : Bool} {cls : CharClass} (admitted : Admitted cls) :
    Proper (namedRanges ignoreCase cls) := by
  have written : Proper (writtenRanges cls) := by
    intro r member
    obtain ⟨item, inside, rfl⟩ := List.mem_map.mp member
    exact (admitted item inside).1
  cases ignoreCase with
  | false => exact written
  | true => exact withCaseForms_proper written

theorem namedRanges_le {ignoreCase : Bool} {cls : CharClass} (admitted : Admitted cls) :
    ∀ r ∈ namedRanges ignoreCase cls, r.last ≤ lastCode := by
  have written : ∀ r ∈ writtenRanges cls, r.last ≤ lastCode := by
    intro r member
    obtain ⟨item, inside, rfl⟩ := List.mem_map.mp member
    exact (admitted item inside).2
  cases ignoreCase with
  | false => exact written
  | true => exact withCaseForms_le written

/-- No range of a class goes beyond the plane. -/
theorem acceptedRanges_le {ignoreCase : Bool} {cls : CharClass} (admitted : Admitted cls) :
    ∀ r ∈ acceptedRanges ignoreCase cls, r.last ≤ lastCode := by
  have bounded := Text.CodeRange.normalize_le (@namedRanges_le ignoreCase cls admitted)
  unfold acceptedRanges
  dsimp only
  split
  · exact Text.CodeRange.complementFrom_le
      (Text.CodeRange.normalize_gapped (@namedRanges_proper ignoreCase cls admitted)).2 bounded
  · exact bounded

/-- The ranges of a class hold the characters that it accepts. -/
theorem covers_acceptedRanges {ignoreCase : Bool} {cls : CharClass} (admitted : Admitted cls) {c : Char} :
    Covers (acceptedRanges ignoreCase cls) c.toNat ↔ cls.Accepts ignoreCase c := by
  have proper := @namedRanges_proper ignoreCase cls admitted
  have bounded := @namedRanges_le ignoreCase cls admitted
  have unfolded : acceptedRanges ignoreCase cls =
      if cls.negated then CodeRange.complement (CodeRange.normalize (namedRanges ignoreCase cls))
      else CodeRange.normalize (namedRanges ignoreCase cls) := rfl
  rw [unfolded, CharClass.Accepts]
  cases negated : cls.negated with
  | true =>
    obtain ⟨gapped, inOrder⟩ := Text.CodeRange.normalize_gapped proper
    rw [if_pos rfl, Text.CodeRange.covers_complement gapped inOrder (Text.CodeRange.normalize_le bounded),
      Text.CodeRange.covers_normalize, covers_namedRanges admitted]
    simp
  | false =>
    simp only [Bool.false_eq_true, if_false, Text.CodeRange.covers_normalize, covers_namedRanges admitted,
      iff_true]
    constructor
    · intro named
      obtain ⟨r, member, holds⟩ := (covers_namedRanges admitted).mpr named
      exact ⟨Nat.le_trans (contains_iff.mp holds).2 (bounded r member), named⟩
    · exact And.right

end TokenTables.Automaton
