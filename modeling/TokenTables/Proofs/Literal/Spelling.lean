import TokenTables.Proofs.Literal.Resumption
import TokenTables.Proofs.Text.Case
import TokenTables.Regex.Language

/-!
Literals in a text. Where the literal tables and the automaton fold case alike, the entry of a literal begins a text just
when the text begins with a spelling of the literal.
-/

namespace TokenTables

namespace Regex

variable {ignoreCase : Bool} {text written : List Char}

theorem spelledAs_false : SpelledAs false text written ↔ text = written := by
  induction text generalizing written with
  | nil => cases written <;> simp [SpelledAs]
  | cons c rest ih => cases written <;> simp [SpelledAs, ih]

theorem SpelledAs.length (spelled : SpelledAs ignoreCase text written) : text.length = written.length := by
  induction text generalizing written with
  | nil =>
    cases written with
    | nil => rfl
    | cons w more => exact spelled.elim
  | cons c rest ih =>
    cases written with
    | nil => exact spelled.elim
    | cons w more => exact congrArg Nat.succ (ih spelled.2)

end Regex

/-- For a character of a literal that ignores case, kept as `kept` in the tables, these take the same characters as the
automaton does, and none of them is left out when the tables are asked by the first character. -/
structure FoldsAlike (written kept c : Char) : Prop where
  same : Text.sameButForCase c kept = true ↔ c ∈ Text.caseForms written
  key : c ∈ Text.caseForms written → c ∈ Text.caseForms kept

namespace LiteralSettings

/-- A character of a literal as the tables keep it. -/
def kept (s : LiteralSettings) (c : Char) : Char := if s.ignoreCase then Text.toLower c else c

end LiteralSettings

namespace LiteralIndex

open Regex (SpelledAs)

variable {t : LiteralIndex} {l : Literal} {text : List Char}

/-- Case does not matter to the literal. -/
def ignores (t : LiteralIndex) (l : Literal) : Bool := t.options.ignoreCase || l.ignoreCase

/-- The tables and the automaton fold the case of a literal alike in a text. -/
def FoldsIn (t : LiteralIndex) (l : Literal) (text : List Char) : Prop :=
  t.ignores l = true → ∀ w ∈ l.chars, ∀ c ∈ text, FoldsAlike w (t.options.kept w) c

theorem entryOf_chars : (t.entryOf l).chars = l.chars.map t.options.kept := by
  unfold entryOf LiteralSettings.kept
  dsimp only
  cases t.options.ignoreCase with
  | true => rfl
  | false => exact (List.map_id l.chars).symm

theorem entryOf_length : (t.entryOf l).chars.length = l.length := by
  rw [entryOf_chars, List.length_map]
  rfl

theorem entryOf_ignoreCase : (t.entryOf l).ignoreCase = t.ignores l := rfl

theorem kept_of_minds (minds : t.ignores l = false) : l.chars.map t.options.kept = l.chars := by
  have runWide : t.options.ignoreCase = false := (Bool.or_eq_false_iff.mp minds).1
  conv_rhs => rw [← List.map_id l.chars]
  refine List.map_congr_left fun c _ => ?_
  unfold LiteralSettings.kept
  rw [runWide]
  rfl

theorem beginsButForCase_iff {kept : Char → Char} {written text : List Char}
    (alike : ∀ w ∈ written, ∀ c ∈ text, FoldsAlike w (kept w) c) :
    Text.beginsButForCase text (written.map kept) = true ↔ SpelledAs true (text.take written.length) written := by
  induction written generalizing text with
  | nil => simp [Text.beginsButForCase, SpelledAs]
  | cons w more ih =>
    cases text with
    | nil => simp [Text.beginsButForCase, SpelledAs]
    | cons c rest =>
      obtain ⟨first, later⟩ := List.forall_mem_cons.mp alike
      have here := (first c List.mem_cons_self).same
      have after := ih fun w member d inRest => later w member d (List.mem_cons_of_mem c inRest)
      simp only [List.map_cons, Text.beginsButForCase, Bool.and_eq_true, List.length_cons, List.take_succ_cons, SpelledAs,
        if_true, here, after]

/-- The entry of a literal begins the texts that begin with a spelling of the literal. -/
theorem begins_iff_spelled (folds : t.FoldsIn l text) :
    (t.entryOf l).begins text = true ↔ SpelledAs (t.ignores l) (text.take l.length) l.chars := by
  unfold Candidate.begins
  rw [entryOf_chars, entryOf_ignoreCase]
  cases minds : t.ignores l with
  | true =>
    rw [if_pos rfl, beginsButForCase_iff (folds minds)]
    rfl
  | false =>
    rw [kept_of_minds minds, if_neg Bool.false_ne_true, List.isPrefixOf_iff_prefix, Regex.spelledAs_false,
      List.prefix_iff_eq_take]
    exact eq_comm

/-- An entry that begins a text is found under the first character. -/
theorem mem_entryKeys {c : Char} {rest : List Char} (folds : t.FoldsIn l (c :: rest)) (some : l.chars ≠ [])
    (spelled : SpelledAs (t.ignores l) ((c :: rest).take l.length) l.chars) : c ∈ entryKeys (t.entryOf l) := by
  obtain ⟨w, more, isChars⟩ := List.exists_cons_of_ne_nil some
  have length : l.length = more.length + 1 := by rw [Literal.length, isChars, List.length_cons]
  rw [length, List.take_succ_cons, isChars] at spelled
  have first := spelled.1
  unfold entryKeys
  rw [entryOf_chars, entryOf_ignoreCase, isChars, List.map_cons]
  dsimp only
  cases minds : t.ignores l with
  | true =>
    rw [minds, if_pos rfl] at first
    rw [if_pos rfl]
    exact (folds minds w (by rw [isChars]; exact List.mem_cons_self) c List.mem_cons_self).key first
  | false =>
    rw [minds, if_neg Bool.false_ne_true] at first
    have plain := kept_of_minds minds
    rw [isChars, List.map_cons] at plain
    rw [if_neg Bool.false_ne_true, (List.cons.inj plain).1, first]
    exact List.mem_singleton.mpr rfl

end LiteralIndex

end TokenTables
