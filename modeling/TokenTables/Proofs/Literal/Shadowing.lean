import TokenTables.Proofs.Literal.Remembered

/-!
The kinds that shadow literals. If no other literal is spelled the same, a literal is shadowed just when the automaton
reports a kind for its last character that is no later than its own, and this kind, or the wildcard's for a literal of one
character, is earlier.
-/

namespace TokenTables

namespace Automaton.Graph

variable {g : Graph} {text : List Char} {place : Nat}

/-- A run comes, place by place, to the kinds reported and the states active there. -/
theorem trace_getElem? (inside : place < text.length) :
    (g.trace g.openingStates text)[place]? = some (g.reportedAt text place, g.activeAfter (text.take (place + 1))) := by
  have all : ∀ (text : List Char) (active : List StateId) (place : Nat), place < text.length →
      (g.trace active text)[place]? = text[place]?.map fun c =>
        g.step c ((text.take place).foldl (fun active c => (g.step c active).2) active) := by
    intro text
    induction text with
    | nil => exact fun active place none => absurd none (Nat.not_lt_zero place)
    | cons c rest ih =>
      intro active place inside
      cases place with
      | zero => rfl
      | succ place => exact ih _ place (Nat.lt_of_succ_lt_succ inside)
  have here : text[place]? = some text[place] := List.getElem?_eq_getElem inside
  rw [all text _ place inside, List.take_succ_eq_append_getElem inside, activeAfter_append]
  unfold reportedAt
  rw [here]
  rfl

/-- Nothing is reported where no state is active. -/
theorem reportedAt_of_stopped (stopped : g.activeAfter (text.take place) = []) : g.reportedAt text place = none := by
  unfold reportedAt
  rw [stopped]
  cases text[place]? <;> rfl

end Automaton.Graph

namespace LiteralIndex

open Automaton (Graph)

variable {t : LiteralIndex} {g : Graph} {wildcard : Option Kind} {l : Literal} {k : Kind}

/-- What registering literals reports does not depend on the tables. -/
theorem register_reports (t : LiteralIndex) (lexState offset : Nat) (g : Graph) (tables : CandidateTables) :
    (t.register lexState offset g tables).reports =
      t.byKind.flatMap fun l => (t.shadowingKind l).toList.map (shadowedReport l) := by
  have all : ∀ (literals : List Literal) (u : TableUpdate), (literals.foldl (t.enterLiteral lexState offset) u).reports =
      u.reports ++ literals.flatMap fun l => (t.shadowingKind l).toList.map (shadowedReport l) := by
    intro literals
    induction literals with
    | nil => exact fun u => (List.append_nil _).symm
    | cons l rest ih =>
      intro u
      rw [List.foldl_cons, ih, List.flatMap_cons, ← List.append_assoc]
      rfl
  exact all t.byKind _

theorem shadowingKind_shiftStates (t : LiteralIndex) (offset : Nat) (l : Literal) :
    (t.shiftStates offset).shadowingKind l = t.shadowingKind l := rfl

theorem capped_le (place : Nat) (k : Kind) : capped wildcard place k ≤ k := by
  unfold capped
  split
  · exact Nat.min_le_left _ _
  · exact Nat.le_refl k

/-- What is remembered was matched before. -/
theorem remembered_before (text : List Char) (count : Nat) : Progress.Before (t.remembered g wildcard text count) count := by
  unfold remembered
  cases last : t.lastDecision g text count with
  | none => exact fun some => absurd rfl some
  | some place =>
    dsimp only
    split
    · exact fun some => absurd rfl some
    · have early := List.mem_of_find?_eq_some last
      rw [List.mem_reverse, List.mem_range] at early
      exact fun _ => early

theorem kindOf_alone (member : l ∈ t.literals) (alone : ∀ other ∈ t.literals, other.chars = l.chars → other = l) :
    t.kindOf l.chars = some l.kind := by
  cases found : t.kindOf l.chars with
  | none => exact absurd rfl (kindOf_eq_none found l member)
  | some first =>
    obtain ⟨⟨other, inside, same, rfl⟩, _⟩ := kindOf_eq_some found
    rw [alone other inside same]

/-- A literal is shadowed by what is remembered at its end, if this was matched there and is earlier. -/
theorem shadowingKind_iff_remembered (distinct : t.DistinctKinds) (member : l ∈ t.literals) (some : l.chars ≠ []) :
    (t.findResumptions g wildcard).shadowingKind l = .some k ↔ (t.remembered g wildcard l.chars l.length).kind = .some k ∧
      (t.remembered g wildcard l.chars l.length).matchedAt = l.length - 1 ∧ k < l.kind := by
  have positive : 0 < l.length := List.length_pos_iff.mpr some
  by_cases stuck : g.openingStates = []
  · have nothing : (t.remembered g wildcard l.chars l.length).kind = none := by
      by_contra resumable
      exact not_resumable_of_stuck stuck l.chars l.length (.inl resumable)
    have unknown : (t.findResumptions g wildcard).progress = {} := by
      unfold findResumptions
      dsimp only
      rw [if_pos (List.isEmpty_iff.mpr stuck)]
    refine iff_of_false (fun shadow => ?_) fun found => nomatch nothing.symm.trans found.1
    obtain ⟨steps, known, _⟩ := shadowingKind_some shadow
    rw [unknown] at known
    simp at known
  · have last : ((List.range l.length).map fun place => t.remembered g wildcard l.chars (place + 1))[l.length - 1]? =
        .some (t.remembered g wildcard l.chars l.length) := by
      rw [List.getElem?_map, List.getElem?_range (Nat.sub_lt positive Nat.one_pos), Option.map_some, Nat.sub_add_cancel positive]
    unfold shadowingKind
    rw [progress_findResumptions distinct stuck member]
    simp only [Option.bind_eq_bind, Option.bind_some, last, Option.bind_eq_some_iff, Option.ite_none_right_eq_some,
      Option.some.injEq]
    constructor
    · rintro ⟨k, found, ⟨now, earlier⟩, rfl⟩
      exact ⟨found, now, earlier⟩
    · rintro ⟨found, now, earlier⟩
      exact ⟨k, found, ⟨now, earlier⟩, rfl⟩

/-- A literal that is spelled like no other is shadowed by what the automaton reports for its last character. -/
theorem shadowingKind_findResumptions (distinct : t.DistinctKinds) (member : l ∈ t.literals) (some : l.chars ≠ [])
    (alone : ∀ other ∈ t.literals, other.chars = l.chars → other = l) :
    (t.findResumptions g wildcard).shadowingKind l = .some k ↔ ∃ first, g.reportedAt l.chars (l.length - 1) = .some first ∧
      first ≤ l.kind ∧ k = capped wildcard (l.length - 1) first ∧ k < l.kind := by
  obtain ⟨place, last⟩ : ∃ place, l.length = place + 1 :=
    Nat.exists_eq_succ_of_ne_zero (mt List.length_eq_zero_iff.mp some)
  have own : t.kindOf (l.chars.take (place + 1)) = .some l.kind := by
    rw [← last, Literal.length, List.take_length]
    exact kindOf_alone member alone
  rw [shadowingKind_iff_remembered distinct member some, last, Nat.add_sub_cancel, remembered_succ]
  by_cases stopped : g.activeAfter (l.chars.take place) = []
  · have undecided : t.decides g l.chars place = false := by
      unfold decides
      rw [stopped]
      rfl
    rw [undecided, if_neg Bool.false_ne_true, Graph.reportedAt_of_stopped stopped]
    refine iff_of_false (fun found => ?_) ?_
    · have before : (t.remembered g wildcard l.chars place).matchedAt < place :=
        remembered_before l.chars place (by rw [found.1]; simp)
      exact absurd found.2.1 (Nat.ne_of_lt before)
    · rintro ⟨_, reported, _⟩
      cases reported
  · have decided : t.decides g l.chars place = true := by
      rw [decides_eq stopped, own]
      exact Bool.or_true _
    rw [decided, if_pos rfl, hides_of_some own]
    cases reported : g.reportedAt l.chars place with
    | none => simp
    | some first =>
      by_cases later : l.kind < first
      · simp [later]
      · simp [later, Nat.le_of_not_lt later, eq_comm]

end LiteralIndex

end TokenTables
