import TokenTables.Proofs.Literal.Made
import TokenTables.Proofs.Literal.Spelling

/-!
Literals by their first characters. An entry is kept under the case forms of one character, which need not be all the
characters that are the same as it but for case, so that a literal can begin a text and still not be found by the first
character of the text.
-/

namespace TokenTables.LiteralIndex

open Automaton (Graph)

variable {t : LiteralIndex} {l : Literal}

/-- The characters under which an entry is kept. -/
theorem mem_entryKeys_iff {first : Char} {more : List Char} (spelled : l.chars = first :: more) {c : Char} :
    c ∈ entryKeys (t.entryOf l) ↔
      if t.ignores l then c ∈ Text.caseForms (t.options.kept first) else c = t.options.kept first := by
  unfold entryKeys
  rw [entryOf_chars, entryOf_ignoreCase, spelled, List.map_cons]
  dsimp only
  split
  · rfl
  · exact List.mem_singleton

/-- The first character of a text that an entry begins is, but for case, that of the entry. -/
theorem first_of_begins {first c : Char} {more rest : List Char} (spelled : l.chars = first :: more)
    (begins : (t.entryOf l).begins (c :: rest) = true) :
    if t.ignores l then Text.sameButForCase c (t.options.kept first) = true else c = t.options.kept first := by
  unfold Candidate.begins at begins
  rw [entryOf_chars, entryOf_ignoreCase, spelled, List.map_cons] at begins
  split
  · rename_i ignores
    rw [if_pos ignores, Text.beginsButForCase, Bool.and_eq_true] at begins
    exact begins.1
  · rename_i minds
    rw [if_neg minds, List.isPrefixOf_cons_cons, Bool.and_eq_true, beq_iff_eq] at begins
    exact begins.1.symm

/-- A literal that begins a text is found by the first character of the text just when it minds case or the character
is a case form of the one kept for the literal, unless the tables had its entry there before. If the one kept is of ASCII,
only the dotless i, the long s and the Kelvin sign can miss it. -/
theorem found_by_first_iff (made : Made t) (member : l ∈ t.literals) {c : Char} {rest : List Char}
    (begins : (t.entryOf l).begins (c :: rest) = true) (lexState offset : Nat) (g : Graph) (tables : CandidateTables) :
    let found := t.entryOf l ∈ (t.register lexState offset g tables).tables.beginningWith lexState c
    ∃ first more, l.chars = first :: more ∧
      (found ↔ (t.ignores l = true → c ∈ Text.caseForms (t.options.kept first)) ∨
        t.entryOf l ∈ tables.beginningWith lexState c) ∧
      ((t.options.kept first).toNat < 0x80 → c ∉ Text.foldedIntoAscii → found) := by
  intro found
  obtain ⟨first, more, spelled⟩ := List.exists_cons_of_ne_nil (made.measured.spelled l member)
  have same := first_of_begins spelled begins
  have keyed : c ∈ entryKeys (t.entryOf l) ↔ (t.ignores l = true → c ∈ Text.caseForms (t.options.kept first)) := by
    rw [mem_entryKeys_iff spelled]
    split
    · rename_i ignores
      exact ⟨fun form _ => form, fun form => form ignores⟩
    · rename_i minds
      rw [if_neg minds] at same
      exact ⟨fun _ ignores => absurd ignores minds, fun _ => same⟩
  have exactly : found ↔ (t.ignores l = true → c ∈ Text.caseForms (t.options.kept first)) ∨
      t.entryOf l ∈ tables.beginningWith lexState c := by
    rw [← keyed]
    refine mem_register_added.trans (or_congr_left ⟨?_, fun key => ⟨l, member, rfl, key⟩⟩)
    rintro ⟨_, _, _, key⟩
    exact key
  refine ⟨first, more, spelled, exactly, fun small apart => exactly.mpr (.inl fun ignores => ?_)⟩
  rw [if_pos ignores] at same
  exact (Text.form_of_ascii same small).resolve_right apart

/-- The long s is an s but for case, and yet hides a literal that begins with s. -/
theorem long_s_hides :
    let t := ({} : LiteralIndex).insert ⟨['s', 'o'], 1, true, .unknown⟩
    let e := t.entryOf ⟨['s', 'o'], 1, true, .unknown⟩
    e.begins ['\u017F', 'o'] = true ∧ e ∉ (t.register 0 0 {} {}).tables.beginningWith 0 '\u017F' := by
  intro t e
  have made : Made t := (Made.empty {}).insert _
  have begins : e.begins ['\u017F', 'o'] = true := by decide +kernel
  obtain ⟨first, more, spelled, exactly, _⟩ :=
    found_by_first_iff made (l := ⟨['s', 'o'], 1, true, .unknown⟩) (by decide +kernel) begins 0 0 {} {}
  obtain ⟨rfl, rfl⟩ := List.cons.inj spelled
  refine ⟨begins, fun found => ?_⟩
  rcases exactly.mp found with form | before
  · exact absurd (form (by decide +kernel)) (by decide +kernel)
  · exact absurd before (by decide +kernel)

end TokenTables.LiteralIndex
