import Mathlib
import TokenTables.Automaton.Fragment
import TokenTables.Automaton.Merging
import TokenTables.Proofs.Literal.Made

/-!
What is remembered along a literal. The automaton is followed character by character, and what is matched by then is
what the last deciding place says: one where the automaton, still going, reports a kind or a literal ends. After each
character the literal is entered under one resumption, of what is remembered and the states active there.
-/

namespace TokenTables

namespace Automaton.Graph

variable {g : Graph}

/-- The states active after a text. -/
def activeAfter (g : Graph) (text : List Char) : List StateId :=
  text.foldl (fun active c => (g.step c active).2) g.openingStates

/-- The kind reported for the character at a place of a text, and none past its end. -/
def reportedAt (g : Graph) (text : List Char) (place : Nat) : Option Kind :=
  text[place]?.bind fun c => (g.step c (g.activeAfter (text.take place))).1

theorem activeAfter_append (read : List Char) (c : Char) :
    g.activeAfter (read ++ [c]) = (g.step c (g.activeAfter read)).2 := by
  unfold activeAfter
  rw [List.foldl_append]
  rfl

end Automaton.Graph

namespace LiteralIndex

open Automaton (Graph StateId)

variable {t made : LiteralIndex} {g : Graph} {wildcard : Option Kind} {text : List Char} {l : Literal}

/-! ### The last place that decides -/

/-- The automaton still goes at a place of a text, and there it reports a kind or a literal ends. -/
def decides (t : LiteralIndex) (g : Graph) (text : List Char) (place : Nat) : Bool :=
  !(g.activeAfter (text.take place)).isEmpty &&
    ((g.reportedAt text place).isSome || t.literals.any fun l => l.chars == text.take (place + 1))

/-- A literal that ends at a place of a text hides what is reported there, a later kind or none. -/
def hides (t : LiteralIndex) (g : Graph) (text : List Char) (place : Nat) : Bool :=
  t.literals.any fun l => l.chars == text.take (place + 1) && (g.reportedAt text place).all fun k => l.kind < k

/-- The last deciding place among the first `count`. -/
def lastDecision (t : LiteralIndex) (g : Graph) (text : List Char) (count : Nat) : Option Nat :=
  (List.range count).reverse.find? (t.decides g text)

/-- At the first place a kind is no worse than the wildcard's. -/
def capped (wildcard : Option Kind) (place : Nat) (k : Kind) : Kind :=
  match place, wildcard with
  | 0, some any => min k any
  | _, _ => k

/-- What is matched after the first `count` characters of a text. -/
def remembered (t : LiteralIndex) (g : Graph) (wildcard : Option Kind) (text : List Char) (count : Nat) : Progress :=
  match t.lastDecision g text count with
  | none => {}
  | some place =>
    if t.hides g text place then {} else ⟨(g.reportedAt text place).map (capped wildcard place), place⟩

theorem lastDecision_succ (count : Nat) : t.lastDecision g text (count + 1) =
    if t.decides g text count then some count else t.lastDecision g text count := by
  unfold lastDecision
  rw [List.range_succ, List.reverse_append, List.reverse_singleton, List.singleton_append, List.find?_cons]
  cases t.decides g text count <;> rfl

theorem remembered_succ (count : Nat) : t.remembered g wildcard text (count + 1) =
    if t.decides g text count then
      if t.hides g text count then {} else ⟨(g.reportedAt text count).map (capped wildcard count), count⟩
    else t.remembered g wildcard text count := by
  unfold remembered
  rw [lastDecision_succ]
  cases t.decides g text count <;> rfl

theorem kindOf_eq_none {chars : List Char} (none : t.kindOf chars = none) : ∀ l ∈ t.literals, l.chars ≠ chars := by
  intro l member same
  unfold kindOf at none
  rw [List.min?_eq_none_iff, List.map_eq_nil_iff, List.filter_eq_nil_iff] at none
  exact none l member (beq_iff_eq.mpr same)

theorem kindOf_eq_some {chars : List Char} {first : Kind} (found : t.kindOf chars = some first) :
    (∃ l ∈ t.literals, l.chars = chars ∧ l.kind = first) ∧ ∀ l ∈ t.literals, l.chars = chars → first ≤ l.kind := by
  unfold kindOf at found
  obtain ⟨member, least⟩ := List.min?_eq_some_iff.mp found
  obtain ⟨l, listed, kind⟩ := List.mem_map.mp member
  obtain ⟨inside, same⟩ := List.mem_filter.mp listed
  exact ⟨⟨l, inside, beq_iff_eq.mp same, kind⟩, fun other inOther sameOther =>
    least _ (List.mem_map_of_mem (List.mem_filter.mpr ⟨inOther, beq_iff_eq.mpr sameOther⟩))⟩

theorem decides_eq (going : g.activeAfter (text.take place) ≠ []) : t.decides g text place =
    ((g.reportedAt text place).isSome || (t.kindOf (text.take (place + 1))).isSome) := by
  unfold decides
  rw [List.isEmpty_eq_false_iff.mpr going, Bool.not_false, Bool.true_and]
  congr 1
  cases found : t.kindOf (text.take (place + 1)) with
  | none => simpa using kindOf_eq_none found
  | some first =>
    obtain ⟨⟨l, member, same, _⟩, _⟩ := kindOf_eq_some found
    exact List.any_eq_true.mpr ⟨l, member, beq_iff_eq.mpr same⟩

theorem hides_of_none (none : t.kindOf (text.take (place + 1)) = none) : t.hides g text place = false := by
  refine List.any_eq_false.mpr fun l member => ?_
  rw [beq_eq_false_iff_ne.mpr (kindOf_eq_none none l member), Bool.false_and]
  exact Bool.false_ne_true

theorem hides_of_some {first : Kind} (found : t.kindOf (text.take (place + 1)) = some first) :
    t.hides g text place = (g.reportedAt text place).all fun k => first < k := by
  obtain ⟨⟨l, member, same, rfl⟩, least⟩ := kindOf_eq_some found
  rw [Bool.eq_iff_iff]
  refine ⟨fun hidden => ?_, fun earlier =>
    List.any_eq_true.mpr ⟨l, member, by rw [beq_iff_eq.mpr same, Bool.true_and]; exact earlier⟩⟩
  obtain ⟨other, inside, both⟩ := List.any_eq_true.mp hidden
  obtain ⟨sameOther, earlier⟩ := Bool.and_eq_true_iff.mp both
  rw [Option.all_eq_true] at earlier ⊢
  intro k reported
  have lower := decide_eq_true_eq.mp (earlier k reported)
  exact decide_eq_true (Nat.lt_of_le_of_lt (least other inside (beq_iff_eq.mp sameOther)) lower)

/-! ### Along a text -/

theorem capAtWildcard_eq (k : Kind) (place : Nat) : (if place = 0 then capAtWildcard wildcard ⟨some k, place⟩ else
    ⟨some k, place⟩) = (⟨some (capped wildcard place k), place⟩ : Progress) := by
  cases place with
  | zero =>
    rw [if_pos rfl]
    cases wildcard with
    | none => rfl
    | some any =>
      have lowest : capped (some any) 0 k = min k any := rfl
      unfold capAtWildcard
      dsimp only
      rw [lowest]
      split
      · rename_i lower
        rw [Nat.min_eq_right (Nat.le_of_lt lower)]
      · rename_i lower
        rw [Nat.min_eq_left (Nat.le_of_not_gt lower)]
  | succ place => rfl

/-- One more character makes of what is remembered what is remembered after it. -/
theorem progressAt_remembered {place : Nat} (going : g.activeAfter (text.take place) ≠ []) :
    t.progressAt wildcard (text.take (place + 1)) place (g.reportedAt text place) (t.remembered g wildcard text place) =
      t.remembered g wildcard text (place + 1) := by
  have uncapped : (if place = 0 then capAtWildcard wildcard {} else {}) = ({} : Progress) := by
    split <;> rfl
  rw [remembered_succ, decides_eq going]
  unfold progressAt
  cases found : t.kindOf (text.take (place + 1)) with
  | none =>
    rw [hides_of_none found]
    cases reported : g.reportedAt text place with
    | none =>
      cases place with
      | zero => rfl
      | succ place => rfl
    | some k => exact capAtWildcard_eq k place
  | some first =>
    rw [hides_of_some found]
    cases reported : g.reportedAt text place with
    | none => exact uncapped
    | some k =>
      by_cases lower : first < k
      · simpa [lower] using uncapped
      · simpa [lower] using capAtWildcard_eq k place

/-- Following the automaton comes to what is remembered and to the active states. -/
theorem follow_remembered (read : List Char) {rest : List Char} (whole : read ++ rest = text) :
    t.follow g wildcard read (t.remembered g wildcard text read.length) (g.activeAfter read) rest =
      (List.range' read.length rest.length).map fun place =>
        (t.remembered g wildcard text (place + 1), g.activeAfter (text.take (place + 1))) := by
  induction rest generalizing read with
  | nil => rfl
  | cons c rest ih =>
    have here : text.take read.length = read := by rw [← whole, List.take_left]
    have next : text.take (read.length + 1) = read ++ [c] := by
      rw [← whole, List.take_length_add_append]
      rfl
    have reported : g.reportedAt text read.length = (g.step c (g.activeAfter read)).1 := by
      unfold Graph.reportedAt
      rw [here, ← whole, List.getElem?_append_right (Nat.le_refl _), Nat.sub_self]
      rfl
    have later := ih (read ++ [c]) (by rw [← whole, List.append_assoc]; rfl)
    rw [List.length_append, List.length_singleton, Graph.activeAfter_append] at later
    rw [List.length_cons, List.range'_succ, List.map_cons, next, Graph.activeAfter_append]
    unfold follow
    dsimp only
    split
    · rename_i stopped
      have nowhere := List.isEmpty_iff.mp stopped
      have undecided : t.decides g text read.length = false := by
        unfold decides
        rw [here, stopped]
        rfl
      rw [remembered_succ, undecided, nowhere] at later ⊢
      exact congrArg _ later
    · rename_i going
      rw [← reported, ← later, ← progressAt_remembered (by rw [here]; exact mt List.isEmpty_iff.mpr going), next]

theorem along_eq (l : Literal) : t.along g wildcard l = (List.range l.length).map fun place =>
    (t.remembered g wildcard l.chars (place + 1), g.activeAfter (l.chars.take (place + 1))) := by
  rw [List.range_eq_range']
  exact follow_remembered [] rfl

theorem along_getElem? {l : Literal} {pos : Nat} {step : Progress} {active : List StateId} :
    (t.along g wildcard l)[pos]? = some (step, active) ↔ pos < l.length ∧
      step = t.remembered g wildcard l.chars (pos + 1) ∧ active = g.activeAfter (l.chars.take (pos + 1)) := by
  rw [along_eq, List.getElem?_map]
  by_cases inside : pos < l.length
  · rw [List.getElem?_range inside, Option.map_some, Option.some.injEq, Prod.mk.injEq]
    simp only [inside, true_and, eq_comm]
  · rw [List.getElem?_eq_none (by rw [List.length_range]; exact Nat.le_of_not_lt inside)]
    simp [inside]

/-! ### Resumptions -/

/-- There is something to resume with after the first `count` characters of a text. -/
def Resumable (t : LiteralIndex) (g : Graph) (wildcard : Option Kind) (text : List Char) (count : Nat) : Prop :=
  (t.remembered g wildcard text count).kind ≠ none ∨ g.activeAfter (text.take count) ≠ []

/-- What to resume with after the first `count` characters of a text. -/
def resumption (t : LiteralIndex) (g : Graph) (wildcard : Option Kind) (text : List Char) (count : Nat) : Resumption :=
  let step := t.remembered g wildcard text count
  ⟨step.kind, step.matchedAt, g.entryNames (g.activeAfter (text.take count))⟩

theorem size_addResumption (l : Literal) (all : Array Resumptions) (pos : Nat) (step : Progress)
    (active : List StateId) : (addResumption g l all pos step active).size = all.size := by
  unfold addResumption
  split
  · rfl
  · exact Array.size_modify

/-- Entering a literal after several characters adds a resumption for each of them. -/
theorem entered_foldl {l : Literal} (steps : List ((Progress × List StateId) × Nat)) (all : Array Resumptions) {pos : Nat}
    {key : Resumption} {k : Kind} :
    Entered (steps.foldl (fun all ((step, active), pos) => addResumption g l all pos step active) all) pos key k ↔
      (∃ step active, ((step, active), pos) ∈ steps ∧ pos < all.size ∧ (step.kind ≠ none ∨ active ≠ []) ∧
        key = ⟨step.kind, step.matchedAt, g.entryNames active⟩ ∧ k = l.kind) ∨ Entered all pos key k := by
  induction steps generalizing all with
  | nil => simp
  | cons first rest ih =>
    obtain ⟨⟨step, active⟩, place⟩ := first
    rw [List.foldl_cons, ih, size_addResumption, entered_addResumption, ← or_assoc]
    refine or_congr_left ⟨?_, ?_⟩
    · rintro (⟨other, states, listed, more⟩ | ⟨rfl, more⟩)
      · exact ⟨other, states, List.mem_cons_of_mem _ listed, more⟩
      · exact ⟨step, active, List.mem_cons_self, more⟩
    · rintro ⟨other, states, listed, more⟩
      rcases List.mem_cons.mp listed with now | later
      · obtain ⟨same, rfl⟩ := Prod.mk.inj now
        obtain ⟨rfl, rfl⟩ := Prod.mk.inj same
        exact .inr ⟨rfl, more⟩
      · exact .inl ⟨other, states, later, more⟩

theorem size_addResumptions (made : LiteralIndex) (l : Literal) :
    (addResumptions g wildcard made l).resumptions.size = made.resumptions.size :=
  List.foldlRecOn (motive := fun all : Array Resumptions => all.size = made.resumptions.size) _ _ rfl
    fun _ before _ _ => (size_addResumption _ _ _ _ _).trans before

/-- Entering a literal along its text adds the resumption after each of its characters. -/
theorem entered_addResumptions (same : made.literals = t.literals) {l : Literal}
    (room : l.length ≤ made.resumptions.size) {pos : Nat} {key : Resumption} {k : Kind} :
    Entered (addResumptions g wildcard made l).resumptions pos key k ↔
      (k = l.kind ∧ pos < l.length ∧ t.Resumable g wildcard l.chars (pos + 1) ∧
        key = t.resumption g wildcard l.chars (pos + 1)) ∨ Entered made.resumptions pos key k := by
  have follows : made.follow g wildcard [] {} g.openingStates l.chars = t.along g wildcard l :=
    follow_congr (kindOf_congr same) _ _ _ _
  unfold addResumptions
  dsimp only
  rw [follows, entered_foldl]
  refine or_congr_left ⟨?_, ?_⟩
  · rintro ⟨step, active, listed, _, something, rfl, rfl⟩
    have here : (t.along g wildcard l)[pos]? = some (step, active) := List.mem_zipIdx_iff_getElem?.mp listed
    obtain ⟨inside, rfl, rfl⟩ := along_getElem?.mp here
    exact ⟨rfl, inside, something, rfl⟩
  · rintro ⟨rfl, inside, something, rfl⟩
    exact ⟨_, _, List.mem_zipIdx_iff_getElem?.mpr (along_getElem?.mpr ⟨inside, rfl, rfl⟩), inside.trans_le room, something,
      rfl, rfl⟩

theorem not_entered_replicate {count pos : Nat} {key : Resumption} {k : Kind} :
    ¬ Entered (Array.replicate count {}) pos key k := by
  rintro ⟨entries, here, kinds, known, _⟩
  obtain ⟨_, rfl⟩ := Array.mem_replicate.mp (Array.mem_of_getElem? here)
  simp at known

theorem activeAfter_of_stuck (stuck : g.openingStates = []) (text : List Char) : g.activeAfter text = [] := by
  unfold Graph.activeAfter
  rw [stuck]
  exact List.foldlRecOn (motive := fun active => active = []) _ _ rfl fun active none c _ => by rw [none]; rfl

theorem not_resumable_of_stuck (stuck : g.openingStates = []) (text : List Char) (count : Nat) :
    ¬ t.Resumable g wildcard text count := by
  have undecided : t.lastDecision g text count = none := by
    refine List.find?_eq_none.mpr fun place _ => ?_
    unfold decides
    rw [activeAfter_of_stuck stuck]
    simp
  unfold Resumable remembered
  rw [undecided, activeAfter_of_stuck stuck]
  simp

/-- A kind is entered under the resumptions of the literals of this kind, each after a character of theirs, and under no
others. -/
theorem entered_findResumptions (measured : t.Measured) {pos : Nat} {key : Resumption} {k : Kind} :
    Entered (t.findResumptions g wildcard).resumptions pos key k ↔
      ∃ l ∈ t.literals, k = l.kind ∧ pos < l.length ∧ t.Resumable g wildcard l.chars (pos + 1) ∧
        key = t.resumption g wildcard l.chars (pos + 1) := by
  have all : ∀ (literals : List Literal) (made : LiteralIndex), literals ⊆ t.literals → made.literals = t.literals →
      made.resumptions.size = t.maxLength →
      (Entered (literals.foldl (addResumptions g wildcard) made).resumptions pos key k ↔
        (∃ l ∈ literals, k = l.kind ∧ pos < l.length ∧ t.Resumable g wildcard l.chars (pos + 1) ∧
          key = t.resumption g wildcard l.chars (pos + 1)) ∨ Entered made.resumptions pos key k) := by
    intro literals
    induction literals with
    | nil => simp
    | cons l rest ih =>
      intro made sub same size
      obtain ⟨member, others⟩ := List.cons_subset.mp sub
      rw [List.foldl_cons, ih (addResumptions g wildcard made l) others same ((size_addResumptions made l).trans size),
        entered_addResumptions same (by rw [size]; exact measured.length l member), List.exists_mem_cons_iff, ← or_assoc]
      exact or_congr_left or_comm
  unfold findResumptions
  dsimp only
  split
  · rename_i none
    have stuck := List.isEmpty_iff.mp none
    refine iff_of_false not_entered_replicate ?_
    rintro ⟨l, _, _, _, something, _⟩
    exact not_resumable_of_stuck stuck _ _ something
  · rw [all t.byKind { t with progress := {}, resumptions := Array.replicate t.maxLength {} }
      (fun l member => mem_byKind.mp member) rfl Array.size_replicate, or_iff_left not_entered_replicate]
    simp only [mem_byKind]

/-- No two literals have the same kind. -/
def DistinctKinds (t : LiteralIndex) : Prop :=
  ∀ l ∈ t.literals, ∀ other ∈ t.literals, l.kind = other.kind → l = other

theorem progress_findResumptions (distinct : t.DistinctKinds) (opening : g.openingStates ≠ [])
    (member : l ∈ t.literals) : (t.findResumptions g wildcard).progress[l.kind]? =
      some ((List.range l.length).map fun place => t.remembered g wildcard l.chars (place + 1)) := by
  have known : ∀ (literals : List Literal) (made : LiteralIndex),
      l ∈ literals ∨ made.progress[l.kind]?.isSome = true →
      (literals.foldl (addResumptions g wildcard) made).progress[l.kind]?.isSome = true := by
    intro literals
    induction literals with
    | nil => exact fun made before => before.resolve_left List.not_mem_nil
    | cons first rest ih =>
      intro made before
      refine ih (addResumptions g wildcard made first) ?_
      unfold addResumptions
      dsimp only
      rw [Std.TreeMap.getElem?_insert]
      split
      · exact .inr rfl
      · rename_i apart
        rcases before with inside | before
        · rcases List.mem_cons.mp inside with rfl | later
          · exact absurd Std.ReflCmp.compare_self apart
          · exact .inl later
        · exact .inr before
  have kept : (t.findResumptions g wildcard).progress[l.kind]?.isSome = true := by
    unfold findResumptions
    dsimp only
    rw [if_neg (mt List.isEmpty_iff.mp opening)]
    exact known _ _ (.inl (mem_byKind.mpr member))
  obtain ⟨steps, found⟩ := Option.isSome_iff_exists.mp kept
  obtain ⟨other, inside, same, rfl⟩ := (findResumptions_follows t g wildcard).progress l.kind steps found
  obtain rfl := distinct other inside l member same
  rw [found, along_eq, List.map_map]
  rfl

/-- After a character of a literal there are states to go on from just when the automaton still goes under some name,
and they are those active. -/
theorem resumptionStates_findResumptions (made : Made t) (distinct : t.DistinctKinds) (member : l ∈ t.literals)
    {pos : Nat} (inside : pos < l.length) : (t.findResumptions g wildcard).resumptionStates pos l.kind =
      if g.entryNames (g.activeAfter (l.chars.take (pos + 1))) = [] then none
      else some (g.entryNames (g.activeAfter (l.chars.take (pos + 1)))) := by
  have only : ∀ key, Entered (t.findResumptions g wildcard).resumptions pos key l.kind →
      key.states = g.entryNames (g.activeAfter (l.chars.take (pos + 1))) := by
    intro key entered
    obtain ⟨other, listed, same, _, _, rfl⟩ := (entered_findResumptions made.measured).mp entered
    obtain rfl := distinct other listed l member same.symm
    rfl
  split
  · rename_i nameless
    exact resumptionStates_eq_none.mpr fun key entered => (only key entered).trans nameless
  · rename_i named
    have going : g.activeAfter (l.chars.take (pos + 1)) ≠ [] := fun stopped => named (by rw [stopped]; rfl)
    have here : Entered (t.findResumptions g wildcard).resumptions pos (t.resumption g wildcard l.chars (pos + 1)) l.kind :=
      (entered_findResumptions made.measured).mpr ⟨l, member, rfl, inside, .inr going, rfl⟩
    have found : (t.findResumptions g wildcard).resumptionStates pos l.kind ≠ none := fun none =>
      named (resumptionStates_eq_none.mp none _ here)
    obtain ⟨states, resumes⟩ := Option.ne_none_iff_exists'.mp found
    obtain ⟨key, entered, rfl⟩ := resumptionStates_some resumes
    rw [resumes, only key entered]

/-- What is kept for a literal after each of its characters is what is remembered there, and the literal is entered there
under the one resumption with that and the states active, as long as there is something to resume with. -/
theorem findResumptions_exact (made : Made t) (distinct : t.DistinctKinds) (opening : g.openingStates ≠ [])
    (wildcard : Option Kind) (member : l ∈ t.literals) :
    (t.findResumptions g wildcard).progress[l.kind]? =
      some ((List.range l.length).map fun place => t.remembered g wildcard l.chars (place + 1)) ∧
    ∀ pos key, Entered (t.findResumptions g wildcard).resumptions pos key l.kind ↔
      pos < l.length ∧ t.Resumable g wildcard l.chars (pos + 1) ∧ key = t.resumption g wildcard l.chars (pos + 1) := by
  refine ⟨progress_findResumptions distinct opening member, fun pos key => ?_⟩
  rw [entered_findResumptions made.measured]
  refine ⟨?_, fun here => ⟨l, member, rfl, here⟩⟩
  rintro ⟨other, inside, same, here⟩
  obtain rfl := distinct other inside l member same.symm
  exact here

/-- Words of one or more letters, of kind 3. -/
def words : Graph :=
  let (g, initial) := Graph.withInitial {}
  let letter : Regex := .charClass .unknown ⟨false, [.range 'a' 'z']⟩
  ((g.addRule ⟨[], false, true⟩ initial 3 (.repetition .unknown letter 1 none)).graph.completeAll .plain).nameAll.1

/-- A keyword earlier than the words, and one later than them. -/
def keywords : LiteralIndex :=
  (({} : LiteralIndex).insert ⟨['i', 'f'], 1, false, .unknown⟩).insert ⟨['i', 'n'], 4, false, .unknown⟩

/-- The keyword that is earlier hides the word that is spelled like it, and the one that is later does not. -/
theorem keywords_progress :
    (keywords.findResumptions words (some 2)).progress[1]? = some [⟨some 2, 0⟩, ⟨none, 0⟩] ∧
      (keywords.findResumptions words (some 2)).progress[4]? = some [⟨some 2, 0⟩, ⟨some 3, 1⟩] := by
  have made : Made keywords := ((Made.empty {}).insert _).insert _
  have distinct : keywords.DistinctKinds := by
    unfold DistinctKinds
    decide
  have opening : words.openingStates = [3] := by
    unfold words
    cbv
  have going : words.openingStates ≠ [] := by rw [opening]; decide
  have earlier : (List.range 2).map (fun place => keywords.remembered words (some 2) ['i', 'f'] (place + 1)) =
      [⟨some 2, 0⟩, ⟨none, 0⟩] := by
    unfold words keywords
    cbv
  have later : (List.range 2).map (fun place => keywords.remembered words (some 2) ['i', 'n'] (place + 1)) =
      [⟨some 2, 0⟩, ⟨some 3, 1⟩] := by
    unfold words keywords
    cbv
  have first := findResumptions_exact made distinct going (some 2) (l := ⟨['i', 'f'], 1, false, .unknown⟩) (by decide)
  have second := findResumptions_exact made distinct going (some 2) (l := ⟨['i', 'n'], 4, false, .unknown⟩) (by decide)
  exact ⟨first.1.trans (congrArg some earlier), second.1.trans (congrArg some later)⟩

end LiteralIndex

end TokenTables
