import TokenTables.Proofs.Automaton.Step
import TokenTables.Proofs.KindSet
import TokenTables.Proofs.Literal.Tables

/-!
What is kept for literals. The progress and the resumptions of a kind come from following the automaton along a literal
of this kind, a kind that shadows a literal is reported at its last character, and the name to go on from stands for the
states active there.
-/

namespace TokenTables.LiteralIndex

open Automaton (EntryName Graph StateId)
open Automaton.Graph (GroupsInOrder MoreGroups StandsFor)

variable {t made : LiteralIndex} {g : Graph} {wildcard : Option Kind} {lexState offset : Nat}

/-! ### Following the automaton -/

/-- What the automaton comes to along a literal. -/
def along (t : LiteralIndex) (g : Graph) (wildcard : Option Kind) (l : Literal) : List (Progress × List StateId) :=
  t.follow g wildcard [] {} g.openingStates l.chars

theorem follow_congr (same : ∀ text, made.kindOf text = t.kindOf text) (read : List Char) (before : Progress)
    (active : List StateId) (rest : List Char) :
    made.follow g wildcard read before active rest = t.follow g wildcard read before active rest := by
  have progress : made.progressAt wildcard = t.progressAt wildcard := by
    funext text pos kind before
    unfold progressAt
    rw [same]
  induction rest generalizing read before active with
  | nil => rfl
  | cons c rest ih =>
    unfold follow
    rw [progress]
    dsimp only
    rw [ih, ih]

theorem kindOf_congr (same : made.literals = t.literals) (text : List Char) : made.kindOf text = t.kindOf text := by
  unfold kindOf
  rw [same]

/-- The active states are those of the run. -/
theorem follow_states (read : List Char) (before : Progress) (active : List StateId) (rest : List Char) :
    (t.follow g wildcard read before active rest).map (·.2) = (g.trace active rest).map (·.2) := by
  induction rest generalizing read before active with
  | nil => rfl
  | cons c rest ih =>
    unfold follow Graph.trace
    dsimp only
    split
    · rename_i none
      obtain rfl := List.isEmpty_iff.mp none
      rw [List.map_cons, List.map_cons, ih]
      rfl
    · rw [List.map_cons, List.map_cons, ih]

/-- A kind that is matched was matched before the place. -/
def Progress.Before (step : Progress) (pos : Nat) : Prop := step.kind ≠ none → step.matchedAt < pos

theorem capAtWildcard_matchedAt (step : Progress) : (capAtWildcard wildcard step).matchedAt = step.matchedAt := by
  unfold capAtWildcard
  split
  · split <;> rfl
  · rfl

theorem capAtWildcard_cases {step : Progress} {k : Kind} (found : (capAtWildcard wildcard step).kind = some k) :
    step.kind = some k ∨ wildcard = some k ∧ step.kind ≠ none := by
  unfold capAtWildcard at found
  split at found
  · rename_i first any isKind
    split at found
    · exact .inr ⟨found, by rw [isKind]; simp⟩
    · exact .inl found
  · exact .inl found

/-- What is matched after one more character, apart from the cap at the first one. -/
theorem progressAt_eq (text : List Char) (pos : Nat) (kind : Option Kind) (before : Progress) : ∃ step : Progress,
    t.progressAt wildcard text pos kind before = (if pos = 0 then capAtWildcard wildcard step else step) ∧
      ∀ k, step.kind = some k → kind = some k ∧ step.matchedAt = pos ∨ step = before := by
  refine ⟨_, rfl, fun k same => ?_⟩
  split at same
  · split at same
    · cases same
    · rename_i later
      rw [if_neg later]
      exact .inl ⟨same, rfl⟩
  · cases same
  · exact .inl ⟨same, rfl⟩
  · exact .inr rfl

/-- A kind matched after one more character is reported for it, or was matched before, or is that of any character. -/
theorem progressAt_cases {text : List Char} {pos : Nat} {kind : Option Kind} {before : Progress} {k : Kind}
    (found : (t.progressAt wildcard text pos kind before).kind = some k) :
    (kind = some k ∨ pos = 0 ∧ wildcard = some k) ∧ (t.progressAt wildcard text pos kind before).matchedAt = pos ∨
      before.kind ≠ none ∧ (t.progressAt wildcard text pos kind before).matchedAt = before.matchedAt := by
  obtain ⟨step, same, own⟩ := @progressAt_eq t wildcard text pos kind before
  rw [same] at found ⊢
  split at found
  · rename_i first
    rw [if_pos first, capAtWildcard_matchedAt]
    rcases capAtWildcard_cases found with here | ⟨any, some⟩
    · rcases own k here with ⟨reported, place⟩ | rfl
      · exact .inl ⟨.inl reported, place⟩
      · exact .inr ⟨by rw [here]; simp, rfl⟩
    · obtain ⟨other, here⟩ := Option.ne_none_iff_exists'.mp some
      rcases own other here with ⟨_, place⟩ | rfl
      · exact .inl ⟨.inr ⟨first, any⟩, place⟩
      · exact .inr ⟨some, rfl⟩
  · rename_i first
    rw [if_neg first]
    rcases own k found with ⟨reported, place⟩ | rfl
    · exact .inl ⟨.inl reported, place⟩
    · exact .inr ⟨by rw [found]; simp, rfl⟩

theorem progressAt_before {text : List Char} {pos : Nat} {kind : Option Kind} {before : Progress}
    (early : Progress.Before before pos) : Progress.Before (t.progressAt wildcard text pos kind before) (pos + 1) := by
  intro some
  obtain ⟨k, found⟩ := Option.ne_none_iff_exists'.mp some
  rcases progressAt_cases found with ⟨_, place⟩ | ⟨earlier, place⟩
  · omega
  · have := early earlier
    omega

/-- A kind matched at a place is reported there, or is that of any character. -/
theorem follow_matched {read rest : List Char} {before : Progress} (early : Progress.Before before read.length)
    {active after : List StateId} {pos : Nat} {step : Progress}
    (here : (t.follow g wildcard read before active rest)[pos]? = some (step, after)) {k : Kind} (kind : step.kind = some k)
    (now : step.matchedAt = read.length + pos) :
    (g.trace active rest)[pos]? = some (some k, after) ∨ read.length + pos = 0 ∧ wildcard = some k := by
  induction rest generalizing read before active pos with
  | nil => cases here
  | cons c rest ih =>
    have longer : (read ++ [c]).length = read.length + 1 := by simp
    have later : ∀ {step : Progress}, Progress.Before step read.length → Progress.Before step (read ++ [c]).length := by
      intro step first some
      have := first some
      omega
    unfold follow at here
    dsimp only at here
    split at here
    · rename_i none
      obtain rfl := List.isEmpty_iff.mp none
      cases pos with
      | zero =>
        obtain ⟨rfl, rfl⟩ := Prod.mk.inj (Option.some.inj here)
        have := early (by rw [kind]; simp)
        omega
      | succ pos =>
        rcases ih (later early) here (by omega) with reported | ⟨zero, any⟩
        · exact .inl reported
        · omega
    · have earlyNext : Progress.Before (t.progressAt wildcard (read ++ [c]) read.length (g.step c active).1 before)
          (read.length + 1) := progressAt_before early
      cases pos with
      | zero =>
        obtain ⟨rfl, rfl⟩ := Prod.mk.inj (Option.some.inj here)
        rcases progressAt_cases kind with ⟨reported | any, _⟩ | ⟨some, place⟩
        · refine .inl ?_
          rw [← reported]
          rfl
        · exact .inr any
        · have := early some
          omega
      | succ pos =>
        rcases ih (by rwa [longer]) here (by omega) with reported | ⟨zero, any⟩
        · exact .inl reported
        · omega

/-! ### Progress and resumptions -/

/-- A kind that shadows a literal is earlier, and it is kept for the last character of the literal. -/
theorem shadowingKind_some {l : Literal} {k : Kind} (shadow : t.shadowingKind l = some k) :
    ∃ steps, t.progress[l.kind]? = some steps ∧ ∃ step, steps[l.length - 1]? = some step ∧ step.kind = some k ∧
      step.matchedAt = l.length - 1 ∧ k < l.kind := by
  unfold shadowingKind at shadow
  obtain ⟨steps, known, shadow⟩ := Option.bind_eq_some_iff.mp shadow
  obtain ⟨step, place, shadow⟩ := Option.bind_eq_some_iff.mp shadow
  obtain ⟨kind, found, shadow⟩ := Option.bind_eq_some_iff.mp shadow
  split at shadow
  · rename_i both
    obtain rfl := Option.some.inj shadow
    exact ⟨steps, known, step, place, found, both⟩
  · cases shadow

/-- Whatever is kept for a kind comes from a literal of this kind. -/
structure Follows (t : LiteralIndex) (g : Graph) (wildcard : Option Kind) (made : LiteralIndex) : Prop where
  literals : made.literals = t.literals
  progress : ∀ (k : Kind) steps, made.progress[k]? = some steps →
    ∃ l ∈ t.literals, l.kind = k ∧ steps = (t.along g wildcard l).map (·.1)
  resumptions : ∀ (pos : Nat) (entries : Resumptions), made.resumptions[pos]? = some entries →
    ∀ (key : Resumption) (kinds : KindSet), entries[key]? = some kinds → ∀ k, kinds.contains k = true →
      ∃ l ∈ t.literals, l.kind = k ∧ ∃ step active, (t.along g wildcard l)[pos]? = some (step, active) ∧
        key.states = g.entryNames active

/-- A kind is entered under a resumption after a position. -/
def Entered (all : Array Resumptions) (pos : Nat) (key : Resumption) (k : Kind) : Prop :=
  ∃ entries, all[pos]? = some entries ∧ ∃ kinds, entries[key]? = some kinds ∧ kinds.contains k = true

/-- Entering a literal under one resumption adds nothing else. -/
theorem entered_alter {entries : Resumptions} {here key : Resumption} {added k : Kind} :
    (∃ kinds, (entries.alter here fun kinds => some ((kinds.getD {}).insert added))[key]? = some kinds ∧
      kinds.contains k = true) ↔
      key = here ∧ k = added ∨ ∃ kinds, entries[key]? = some kinds ∧ kinds.contains k = true := by
  rw [Std.TreeMap.getElem?_alter]
  by_cases same : here = key
  · subst same
    rw [if_pos Std.ReflCmp.compare_self]
    simp only [Option.some.injEq, exists_eq_left', KindSet.contains_insert, true_and]
    refine or_congr_right ?_
    cases entries[here]? with
    | none => simp [KindSet.contains_empty]
    | some kinds => simp
  · rw [if_neg fun equal => same (Std.LawfulEqCmp.eq_of_compare equal)]
    simp only [Ne.symm same, false_and, false_or]

/-- One character of a literal enters it under one resumption, unless there is nothing to resume with. -/
theorem entered_addResumption {l : Literal} {all : Array Resumptions} {place : Nat} {step : Progress}
    {active : List StateId} {pos : Nat} {key : Resumption} {k : Kind} :
    Entered (addResumption g l all place step active) pos key k ↔
      (pos = place ∧ place < all.size ∧ (step.kind ≠ none ∨ active ≠ []) ∧
        key = ⟨step.kind, step.matchedAt, g.entryNames active⟩ ∧ k = l.kind) ∨ Entered all pos key k := by
  unfold addResumption
  dsimp only
  split
  · rename_i nothing
    simp only [Bool.and_eq_true, Option.isNone_iff_eq_none, List.isEmpty_iff] at nothing
    simp [nothing.1, nothing.2]
  · rename_i something
    have goesOn : step.kind ≠ none ∨ active ≠ [] := by
      simp only [Bool.and_eq_true, Option.isNone_iff_eq_none, List.isEmpty_iff] at something
      exact not_and_or.mp something
    unfold Entered
    rw [Array.getElem?_modify]
    by_cases here : place = pos
    · subst here
      rw [if_pos rfl]
      cases found : all[place]? with
      | none =>
        have past := Array.getElem?_eq_none_iff.mp found
        simp [Nat.not_lt.mpr past]
      | some entries =>
        have inside := (Array.getElem?_eq_some_iff.mp found).1
        simp only [Option.map_some, Option.some.injEq, exists_eq_left', entered_alter, true_and, inside, goesOn]
    · rw [if_neg here]
      simp only [Ne.symm here, false_and, false_or]

theorem Follows.add (follows : Follows t g wildcard made) {l : Literal} (member : l ∈ t.literals) :
    Follows t g wildcard (addResumptions g wildcard made l) where
  literals := follows.literals
  progress k steps known := by
    unfold addResumptions at known
    dsimp only at known
    rw [Std.TreeMap.getElem?_insert] at known
    split at known
    · rename_i same
      obtain rfl := Std.LawfulEqCmp.eq_of_compare same
      obtain rfl := Option.some.inj known
      exact ⟨l, member, rfl, by rw [follow_congr (kindOf_congr follows.literals)]; rfl⟩
    · exact follows.progress k steps known
  resumptions := by
    unfold addResumptions
    dsimp only
    rw [follow_congr (kindOf_congr follows.literals)]
    refine List.foldlRecOn (motive := fun all : Array Resumptions => ∀ (pos : Nat) (entries : Resumptions),
      all[pos]? = some entries → ∀ (key : Resumption) (kinds : KindSet), entries[key]? = some kinds →
        ∀ k, kinds.contains k = true → ∃ l ∈ t.literals, l.kind = k ∧ ∃ step active,
          (t.along g wildcard l)[pos]? = some (step, active) ∧ key.states = g.entryNames active) _ _ follows.resumptions ?_
    rintro all before ⟨⟨step, active⟩, place⟩ listed pos entries here key kinds known k inside
    rcases entered_addResumption.mp ⟨entries, here, kinds, known, inside⟩ with
      ⟨rfl, _, _, rfl, rfl⟩ | ⟨entriesBefore, there, kindsBefore, old, inOld⟩
    · exact ⟨l, member, rfl, step, active, List.mem_zipIdx_iff_getElem?.mp listed, rfl⟩
    · exact before pos entriesBefore there key kindsBefore old k inOld

theorem findResumptions_follows (t : LiteralIndex) (g : Graph) (wildcard : Option Kind) :
    Follows t g wildcard (t.findResumptions g wildcard) := by
  have cleared : Follows t g wildcard { t with progress := {}, resumptions := Array.replicate t.maxLength {} } := by
    refine ⟨rfl, fun k steps none => by simp at none, fun pos entries here key kinds known => ?_⟩
    obtain ⟨_, rfl⟩ := Array.mem_replicate.mp (Array.mem_of_getElem? here)
    simp at known
  unfold findResumptions
  dsimp only
  split
  · exact cleared
  · exact List.foldlRecOn (motive := Follows t g wildcard) _ _ cleared fun made before l listed =>
      before.add (List.mem_mergeSort.mp listed)

/-- The resumptions after a position are those listed there. -/
theorem entered_iff_mem {pos : Nat} {key : Resumption} {k : Kind} : Entered t.resumptions pos key k ↔
    ∃ kinds, (key, kinds) ∈ (t.resumptionsAt pos).toList ∧ kinds.contains k = true := by
  unfold Entered resumptionsAt
  simp only [Std.TreeMap.mem_toList_iff_getElem?_eq_some, Array.getD_eq_getD_getElem?]
  cases t.resumptions[pos]? with
  | none => simp
  | some entries => simp

/-- The states to go on from are those of a resumption that the literal is entered under. -/
theorem resumptionStates_some {pos : Nat} {k : Kind} {states : List EntryName}
    (found : t.resumptionStates pos k = some states) : ∃ key, Entered t.resumptions pos key k ∧ states = key.states := by
  unfold resumptionStates at found
  obtain ⟨⟨key, kinds⟩, chosen, rfl⟩ := Option.map_eq_some_iff.mp found
  have holds := List.find?_some chosen
  simp only [Bool.and_eq_true] at holds
  exact ⟨key, entered_iff_mem.mpr ⟨kinds, List.mem_of_find?_eq_some chosen, holds.1⟩, rfl⟩

theorem resumptionStates_eq_none {pos : Nat} {k : Kind} :
    t.resumptionStates pos k = none ↔ ∀ key, Entered t.resumptions pos key k → key.states = [] := by
  unfold resumptionStates
  rw [Option.map_eq_none_iff, List.find?_eq_none]
  simp only [Prod.forall, Bool.and_eq_true, Bool.not_eq_true', List.isEmpty_eq_false_iff, not_and, not_not]
  constructor
  · intro nothing key entered
    obtain ⟨kinds, listed, holds⟩ := entered_iff_mem.mp entered
    exact nothing key kinds listed holds
  · exact fun nothing key kinds listed holds => nothing key (entered_iff_mem.mpr ⟨kinds, listed, holds⟩)

/-- A resumption for a kind is that of a literal of this kind. -/
theorem Follows.resumptionStates (follows : Follows t g wildcard made) {pos : Nat} {k : Kind} {states : List EntryName}
    (found : made.resumptionStates pos k = some states) : ∃ l ∈ t.literals, l.kind = k ∧ ∃ step active,
      (t.along g wildcard l)[pos]? = some (step, active) ∧ states = g.entryNames active := by
  obtain ⟨key, ⟨entries, place, kinds, listed, member⟩, rfl⟩ := resumptionStates_some found
  exact follows.resumptions pos entries place key kinds listed k member

/-- A kind that shadows a literal is matched at the last character of a literal of the same kind and length. -/
theorem Follows.shadowingKind (follows : Follows t g wildcard made) {l : Literal} {k : Kind}
    (shadow : made.shadowingKind l = some k) : ∃ other ∈ t.literals, other.kind = l.kind ∧
      ∃ step active, (t.along g wildcard other)[l.length - 1]? = some (step, active) ∧ step.kind = some k ∧
        step.matchedAt = l.length - 1 := by
  obtain ⟨steps, known, step, place, found, now, _⟩ := shadowingKind_some shadow
  obtain ⟨other, member, same, rfl⟩ := follows.progress l.kind steps known
  rw [List.getElem?_map] at place
  obtain ⟨⟨own, active⟩, there, rfl⟩ := Option.map_eq_some_iff.mp place
  exact ⟨other, member, same, own, active, there, found, now⟩

/-- The kind of an entry is that of its literal or an earlier one. -/
theorem entryOf_kind_le (t : LiteralIndex) (l : Literal) : (t.entryOf l).kind ≤ l.kind := by
  unfold entryOf
  dsimp only
  cases shadow : t.shadowingKind l with
  | none => exact Nat.le_refl l.kind
  | some k =>
    obtain ⟨_, _, _, _, _, _, earlier⟩ := shadowingKind_some shadow
    exact Nat.le_of_lt earlier

/-! ### Names to go on from -/

/-- The names to go on from stand for the states of the resumptions of literals. -/
def Started (t : LiteralIndex) (lexState offset : Nat) (u : TableUpdate) : Prop :=
  ∀ (k : Kind) (name : EntryName), u.tables.startStates[(lexState, k)]? = some name →
    ∃ l ∈ t.literals, (t.entryOf l).kind = k ∧ t.mixesCase = false ∧ ∃ n states, name = n + offset ∧
      t.resumptionStates (l.length - 1) l.kind = some states ∧ StandsFor u.graph (some n) (ascending states)

theorem startState_stands {u : TableUpdate} (within : t.ResumesWithin u.graph.nameCount) (ordered : GroupsInOrder u.graph)
    {pos : Nat} {k : Kind} {name : EntryName} (found : (t.startState pos k u.graph).2 = some name) :
    t.mixesCase = false ∧ ∃ states, t.resumptionStates pos k = some states ∧
      StandsFor (t.startState pos k u.graph).1 (some name) (ascending states) := by
  unfold startState at found ⊢
  split at found
  · cases found
  · rename_i proceeds
    rw [if_neg proceeds]
    split at found
    · cases found
    · rename_i states isStates
      obtain ⟨_, _, stands⟩ := Automaton.Graph.nameOfGroup_ok ordered (within pos k states isStates)
      refine ⟨by simp only [Bool.or_eq_true, not_or] at proceeds; simpa using proceeds.1, states, isStates, ?_⟩
      rwa [found] at stands

theorem Started.enter {u : TableUpdate} (registers : Registers lexState offset g u)
    (within : t.ResumesWithin g.nameCount) (started : t.Started lexState offset u) {l : Literal} (member : l ∈ t.literals) :
    t.Started lexState offset (t.enterLiteral lexState offset u l) := by
  have count : u.graph.nameCount = g.nameCount := congrArg Array.size registers.more.named
  have inside : t.ResumesWithin u.graph.nameCount := by rwa [count]
  intro k name known
  rw [enterLiteral_eq, CandidateTables.startStates_setStart, startStates_enterKeys] at known
  split at known
  · rename_i same
    obtain ⟨n, found, rfl⟩ := Option.map_eq_some_iff.mp known
    obtain ⟨mixes, states, resumes, stands⟩ := startState_stands inside registers.ordered found
    exact ⟨l, member, same.2, mixes, n, states, rfl, resumes, stands⟩
  · obtain ⟨other, listed, same, mixes, n, states, place, resumes, stands⟩ := started k name known
    exact ⟨other, listed, same, mixes, n, states, place, resumes,
      stands.moreGroups (startState_ok inside registers.ordered (l.length - 1) l.kind).1⟩

theorem register_started {tables : CandidateTables} (within : t.ResumesWithin g.nameCount) (ordered : GroupsInOrder g)
    (absent : Absent lexState tables) : t.Started lexState offset (t.register lexState offset g tables) := by
  have begun : Registers lexState offset g { tables, graph := g } ∧ t.Started lexState offset { tables, graph := g } :=
    ⟨⟨.refl g, ordered, fun k name known => by simp [absent.starts k] at known⟩,
      fun k name known => by simp [absent.starts k] at known⟩
  exact (List.foldlRecOn
    (motive := fun u : TableUpdate => Registers lexState offset g u ∧ t.Started lexState offset u) _ _ begun
    fun u before l listed => ⟨before.1.enter within l, before.2.enter before.1 within (List.mem_mergeSort.mp listed)⟩).2

end TokenTables.LiteralIndex
