import TokenTables.Proofs.Literal.Entries

/-!
What the operations on an index of literals can make. Whatever their order, each literal of the index has characters,
and the length of the longest one is known.
-/

namespace TokenTables.LiteralIndex

open Automaton (Graph)

variable {t : LiteralIndex}

/-- The indexes that come of the operations on them. -/
inductive Made : LiteralIndex → Prop
  | empty (options : LiteralSettings) : Made { options }
  | insert {t : LiteralIndex} (made : Made t) (l : Literal) : Made (t.insert l)
  | mixing {t : LiteralIndex} (made : Made t) (mixesCase : Bool) : Made { t with mixesCase }
  | markExtended {t : LiteralIndex} (made : Made t) : Made t.markExtended
  | findResumptions {t : LiteralIndex} (made : Made t) (g : Graph) (wildcard : Option Kind) :
    Made (t.findResumptions g wildcard)
  | shiftStates {t : LiteralIndex} (made : Made t) (offset : Nat) : Made (t.shiftStates offset)

/-- Every literal has characters, and no more of them than the longest one. -/
structure Measured (t : LiteralIndex) : Prop where
  spelled : ∀ l ∈ t.literals, l.chars ≠ []
  length : ∀ l ∈ t.literals, l.length ≤ t.maxLength

theorem Measured.insert (measured : Measured t) (l : Literal) : Measured (t.insert l) := by
  have inserted := insert_inserted t l
  by_cases empty : l.chars = []
  · rwa [inserted.same empty]
  · have fits : t.maxLength ≤ (t.insert l).maxLength ∧ l.length ≤ (t.insert l).maxLength := by
      rw [inserted.maxLength]
      exact ⟨Nat.le_max_left _ _, Nat.le_max_right _ _⟩
    refine ⟨fun other member => ?_, fun other member => ?_⟩ <;>
      rw [inserted.literals empty, List.mem_append, List.mem_singleton] at member
    · rcases member with before | rfl
      · exact measured.spelled other before
      · exact empty
    · rcases member with before | rfl
      · exact (measured.length other before).trans fits.1
      · exact fits.2

theorem Made.measured (made : Made t) : Measured t := by
  induction made with
  | empty options => exact ⟨fun l none => absurd none List.not_mem_nil, fun l none => absurd none List.not_mem_nil⟩
  | insert _ l before => exact before.insert l
  | mixing _ mixesCase before => exact ⟨before.spelled, before.length⟩
  | markExtended _ before => exact ⟨before.spelled, before.length⟩
  | @findResumptions t _ g wildcard before =>
    obtain ⟨progress, resumptions, same⟩ := findResumptions_eq t g wildcard
    rw [same]
    exact ⟨before.spelled, before.length⟩
  | shiftStates _ offset before => exact ⟨before.spelled, before.length⟩

end TokenTables.LiteralIndex
