import Mathlib.Data.List.DropRight
import Mathlib.Data.List.GetD
import TokenTables.KindSet

/-!
Members of sets of kinds. Room for more words adds no member, an insertion adds the one kind, and a union those of the
other set. What is read off the words, from the list of members to the equality of two sets, depends on the members alone.
-/

namespace TokenTables.KindSet

variable {s t : KindSet} {i n k other : Nat}

/-! ### Words -/

theorem word_grow : (s.grow n).word i = s.word i := by
  unfold word grow
  rw [Array.getD_eq_getD_getElem?, Array.getD_eq_getD_getElem?]
  by_cases inside : i < s.words.size
  · rw [Array.getElem?_append_left inside]
  · have late : s.words.size ≤ i := Nat.le_of_not_lt inside
    rw [Array.getElem?_append_right late, Array.getElem?_eq_none late, Array.getElem?_replicate]
    split <;> rfl

theorem word_insert : (s.insert k).word i = if k / 64 = i then s.word i ||| BitVec.twoPow 64 (k % 64) else s.word i := by
  have room : k / 64 < (s.grow (k / 64 + 1)).words.size := by
    unfold grow
    rw [Array.size_append, Array.size_replicate]
    omega
  have grown : (s.grow (k / 64 + 1)).words.getD i 0#64 = s.word i := word_grow
  unfold word insert
  rw [Array.getD_eq_getD_getElem?] at grown ⊢
  rw [Array.getElem?_modify]
  split
  · rename_i here
    subst here
    rw [Array.getElem?_eq_getElem room] at grown ⊢
    rw [Option.getD_some] at grown
    rw [Option.map_some, Option.getD_some, grown]
    rfl
  · exact grown

theorem word_of_lt_size (inside : i < s.words.size) : s.word i = s.words[i] := by
  rw [word, Array.getD_eq_getD_getElem?, Array.getElem?_eq_getElem inside]
  rfl

theorem word_of_size_le (past : s.words.size ≤ i) : s.word i = 0#64 := by
  rw [word, Array.getD_eq_getD_getElem?, Array.getElem?_eq_none past]
  rfl

theorem word_union : (s.union t).word i = s.word i ||| t.word i := by
  have size : (s.union t).words.size = (s.grow t.words.size).words.size := Array.size_mapIdx
  rw [← word_grow (s := s) (n := t.words.size)]
  rcases Nat.lt_or_ge i (s.union t).words.size with inside | past
  · rw [word_of_lt_size inside, word_of_lt_size (s := s.grow t.words.size) (size ▸ inside)]
    exact Array.getElem_mapIdx ..
  · have pastOther : t.words.size ≤ i := by
      unfold grow at size
      rw [Array.size_append, Array.size_replicate] at size
      omega
    rw [word_of_size_le past, word_of_size_le (s := s.grow t.words.size) (size ▸ past), word_of_size_le pastOther]
    rfl

/-! ### Membership -/

theorem contains_empty : ({} : KindSet).contains k = false := by
  simp [contains, word]

theorem contains_insert : (s.insert k).contains other = true ↔ other = k ∨ s.contains other = true := by
  unfold contains
  rw [word_insert]
  by_cases sameWord : k / 64 = other / 64
  · rw [if_pos sameWord, BitVec.getLsbD_or, BitVec.getLsbD_twoPow]
    have sameBit : k % 64 = other % 64 ↔ other = k := by omega
    have small : k % 64 < 64 := Nat.mod_lt _ (by decide)
    simp only [small, decide_true, Bool.true_and, Bool.or_eq_true, decide_eq_true_eq, sameBit]
    exact Or.comm
  · have apart : other ≠ k := by
      rintro rfl
      exact sameWord rfl
    rw [if_neg sameWord]
    simp [apart]

theorem contains_grow : (s.grow n).contains k = s.contains k := by
  rw [contains, contains, word_grow]

theorem contains_union : (s.union t).contains k = true ↔ s.contains k = true ∨ t.contains k = true := by
  rw [contains, contains, contains, word_union, BitVec.getLsbD_or, Bool.or_eq_true]

theorem contains_insertAll {kinds : List Kind} :
    (s.insertAll kinds).contains k = true ↔ k ∈ kinds ∨ s.contains k = true := by
  induction kinds generalizing s with
  | nil => simp [insertAll]
  | cons first rest ih =>
    have added : ((s.insert first).insertAll rest).contains k = true ↔ k ∈ rest ∨ (s.insert first).contains k = true := ih
    rw [contains_insert] at added
    rw [List.mem_cons, or_assoc, or_left_comm]
    exact added

theorem contains_ofList {kinds : List Kind} : (ofList kinds).contains k = true ↔ k ∈ kinds := by
  have none : empty.contains k = false := contains_empty
  rw [ofList, contains_insertAll, none]
  simp

theorem insertNew_fresh : (s.insertNew k).2 = true ↔ s.contains k = false := by
  rw [insertNew, Bool.not_eq_true']

/-- Bit `i` of word `n` stands for one kind. -/
theorem contains_bit (small : i < 64) : s.contains (64 * n + i) = (s.word n).getLsbD i := by
  have place : (64 * n + i) / 64 = n := by omega
  have bit : (64 * n + i) % 64 = i := by omega
  rw [contains, place, bit]

theorem word_ext (same : ∀ k, s.contains k = t.contains k) (i : Nat) : s.word i = t.word i := by
  apply BitVec.eq_of_getLsbD_eq
  intro bit small
  rw [← contains_bit small, ← contains_bit small, same]

theorem isEmpty_iff : s.isEmpty = true ↔ ∀ k, s.contains k = false := by
  have words : s.isEmpty = true ↔ ∀ i, s.word i = 0#64 := by
    simp only [isEmpty, Array.all_eq_true, beq_iff_eq]
    constructor
    · intro zero i
      by_cases inside : i < s.words.size
      · exact (word_of_lt_size inside).trans (zero i inside)
      · exact word_of_size_le (Nat.le_of_not_lt inside)
    · exact fun zero i inside => (word_of_lt_size inside).symm.trans (zero i)
  rw [words]
  constructor
  · intro zero k
    rw [contains, zero, BitVec.getLsbD_zero]
  · intro none i
    exact (word_ext (t := {}) (fun k => (none k).trans contains_empty.symm) i).trans (word_of_size_le (Nat.zero_le _))

/-! ### The list of members -/

theorem mem_wordMembers : k ∈ s.wordMembers i ↔ k / 64 = i ∧ s.contains k = true := by
  simp only [wordMembers, List.mem_map, List.mem_filter, List.mem_range]
  constructor
  · rintro ⟨bit, ⟨small, set⟩, rfl⟩
    exact ⟨by omega, (contains_bit small).trans set⟩
  · rintro ⟨rfl, member⟩
    exact ⟨k % 64, ⟨Nat.mod_lt _ (by decide), member⟩, Nat.div_add_mod k 64⟩

theorem mem_toList : k ∈ s.toList ↔ s.contains k = true := by
  simp only [toList, List.mem_flatMap, List.mem_range, mem_wordMembers]
  constructor
  · rintro ⟨_, _, _, member⟩
    exact member
  · intro member
    refine ⟨k / 64, Nat.lt_of_not_le fun past => ?_, rfl, member⟩
    rw [contains, word_of_size_le past, BitVec.getLsbD_zero] at member
    cases member

/-- Within a word the bits ascend, and all kinds of a word come before those of the next one. -/
theorem toList_ascending (s : KindSet) : s.toList.Pairwise (· < ·) := by
  unfold toList
  rw [List.pairwise_flatMap]
  constructor
  · intro i _
    have bits : ((List.range 64).filter (s.word i).getLsbD).Pairwise (· < ·) := List.pairwise_lt_range.filter _
    exact bits.map _ fun a b lt => Nat.add_lt_add_left lt (64 * i)
  · refine List.pairwise_lt_range.imp fun {i j} lt a inI b inJ => ?_
    obtain rfl := (mem_wordMembers.mp inI).1
    obtain rfl := (mem_wordMembers.mp inJ).1
    exact Nat.lt_of_div_lt_div lt

theorem cpop_eq_length (w : BitVec 64) : w.cpop.toNat = ((List.range 64).filter w.getLsbD).length := by
  have upTo : ∀ n, w.cpopNatRec n 0 = ((List.range n).filter w.getLsbD).length := by
    intro n
    induction n with
    | zero => rfl
    | succ n ih =>
      rw [BitVec.cpopNatRec_succ, BitVec.cpopNatRec_add, ih, List.range_succ, List.filter_append, List.length_append]
      cases set : w.getLsbD n <;> simp [set]
  rw [BitVec.toNat_cpop, upTo]

theorem size_eq_length (s : KindSet) : s.size = s.toList.length := by
  have perWord : s.words.toList.map (fun w => w.cpop.toNat) =
      (List.range s.words.size).map fun i => (s.wordMembers i).length := by
    apply List.ext_getElem
    · simp
    · intro i left right
      have inside : i < s.words.size := by simpa using right
      rw [List.getElem_map, List.getElem_map, List.getElem_range, Array.getElem_toList, ← word_of_lt_size inside,
        cpop_eq_length, wordMembers, List.length_map]
  rw [size, ← List.foldl_map, ← List.sum_eq_foldl, perWord, toList, List.length_flatMap]

/-- The first member is the least one. -/
theorem first?_eq_some_iff : s.first? = some k ↔ s.contains k = true ∧ ∀ other, s.contains other = true → k ≤ other := by
  have ascending := s.toList_ascending
  simp only [first?, ← mem_toList]
  cases members : s.toList with
  | nil => simp
  | cons first rest =>
    rw [members, List.pairwise_cons] at ascending
    rw [List.head?_cons, Option.some.injEq]
    constructor
    · rintro rfl
      refine ⟨List.mem_cons_self, fun other member => ?_⟩
      rcases List.mem_cons.mp member with rfl | later
      · exact Nat.le_refl _
      · exact Nat.le_of_lt (ascending.1 other later)
    · rintro ⟨member, least⟩
      rcases List.mem_cons.mp member with rfl | later
      · rfl
      · exact absurd (ascending.1 k later) (Nat.not_lt.mpr (least first List.mem_cons_self))

/-! ### Equality -/

theorem getD_rdropWhile (ws : List (BitVec 64)) (i : Nat) :
    (ws.rdropWhile (· == 0#64)).getD i 0#64 = ws.getD i 0#64 := by
  induction ws using List.reverseRecOn with
  | nil => rfl
  | append_singleton ws w ih =>
    rw [List.rdropWhile_concat]
    split
    · rename_i zero
      obtain rfl : w = 0#64 := beq_iff_eq.mp zero
      rw [ih]
      rcases Nat.lt_or_ge i ws.length with inside | past
      · rw [List.getD_append _ _ _ _ inside]
      · rw [List.getD_append_right _ _ _ _ past, List.getD_eq_default _ _ past, List.getD_eq_getElem?_getD,
          List.getElem?_getD_singleton_default_eq]
    · rfl

theorem getD_usedWords (s : KindSet) (i : Nat) : s.usedWords.getD i 0#64 = s.word i := by
  rw [word, Array.getD_eq_getD_getElem?, ← Array.getElem?_toList, ← List.getD_eq_getElem?_getD]
  exact getD_rdropWhile s.words.toList i

/-- The last of the words in use holds a kind. -/
theorem getLast_usedWords (some : s.usedWords ≠ []) : s.usedWords.getLast some ≠ 0#64 := fun zero =>
  List.rdropWhile_last_not (· == 0#64) s.words.toList some (beq_iff_eq.mpr zero)

/-- The last word in use of one set is in use in every set with the same words. -/
theorem length_usedWords_le (same : ∀ i, s.word i = t.word i) : s.usedWords.length ≤ t.usedWords.length := by
  refine Nat.le_of_not_lt fun shorter => ?_
  have some : s.usedWords ≠ [] := List.ne_nil_of_length_pos (Nat.zero_lt_of_lt shorter)
  have zero : s.usedWords.getLast some = 0#64 := by
    rw [List.getLast_eq_getElem, ← List.getD_eq_getElem _ 0#64, getD_usedWords, same, ← getD_usedWords,
      List.getD_eq_default]
    omega
  exact getLast_usedWords some zero

theorem usedWords_eq_iff : s.usedWords = t.usedWords ↔ ∀ k, s.contains k = t.contains k := by
  constructor
  · intro same k
    rw [contains, contains, ← getD_usedWords, ← getD_usedWords, same]
  · intro same
    have words := word_ext same
    refine List.ext_getElem (Nat.le_antisymm (length_usedWords_le words) (length_usedWords_le fun i => (words i).symm)) ?_
    intro i left right
    rw [← List.getD_eq_getElem _ 0#64 left, ← List.getD_eq_getElem _ 0#64 right, getD_usedWords, getD_usedWords, words]

theorem beq_iff : (s == t) = true ↔ ∀ k, s.contains k = t.contains k := by
  show (s.usedWords == t.usedWords) = true ↔ _
  rw [beq_iff_eq, usedWords_eq_iff]

/-- Room that a longer set left behind does not tell two sets apart. -/
example : (({} : KindSet).insert 1).union (({} : KindSet).grow 3) == ({} : KindSet).insert 1 := by decide

instance : LawfulHashable KindSet where
  hash_eq s t same := by
    show hash s.usedWords = hash t.usedWords
    rw [usedWords_eq_iff.mpr (beq_iff.mp same)]

end TokenTables.KindSet
