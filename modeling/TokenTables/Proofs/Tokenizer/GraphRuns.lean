import TokenTables.Proofs.Automaton.Run
import TokenTables.Proofs.Tokenizer.Export

/-!
Last matches. Running a named graph along a text gives the longest prefix after which closing has found a kind, with the
best kind found there, and a run of the exported entries comes to the same.
-/

namespace TokenTables

open Automaton (EntryName Graph StateId)
open Automaton.Graph (Active Alike Completed KindFound Labelled StandsFor)
open Kind (IsBest)

/-! ### Findings -/

namespace Tokenizer

/-- The kinds found after a text. -/
abbrev Findings := List Char → Option Kind → Prop

variable {K L : Findings} {text : List Char}

/-- Nothing is found after the first `length` characters. -/
def NothingBeyond (K : Findings) (text : List Char) (length : Nat) : Prop :=
  ∀ i, length < i → i ≤ text.length → IsBest none (K (text.take i))

/-- The best kind of the longest prefix after which one is found; the empty prefix does not count. -/
structure IsLongest (K : Findings) (text : List Char) (m : Match) : Prop where
  positive : 0 < m.length
  inside : m.length ≤ text.length
  best : IsBest (some m.kind) (K (text.take m.length))
  beyond : NothingBeyond K text m.length

/-- What a search for the longest match comes to. -/
def Finds (K : Findings) (text : List Char) : Option Match → Prop
  | some m => IsLongest K text m
  | none => NothingBeyond K text 0

theorem isBest_none_iff {P : Option Kind → Prop} : IsBest none P ↔ ∀ k, ¬ P (some k) := by
  constructor
  · intro best k holds
    obtain ⟨_, _, impossible⟩ := best.first (some k) holds k rfl
    cases impossible
  · refine fun nothing => ⟨fun k impossible => ?_, fun a holds k same => ?_⟩
    · cases impossible
    · subst same
      exact absurd holds (nothing k)

/-- What is found depends on the best kinds alone. -/
theorem Finds.congr {result : Option Match}
    (same : ∀ i best, 0 < i → i ≤ text.length → IsBest best (K (text.take i)) → IsBest best (L (text.take i)))
    (finds : Finds K text result) : Finds L text result := by
  cases result with
  | none => exact fun i low high => same i none low high (finds i low high)
  | some m =>
    obtain ⟨positive, inside, best, beyond⟩ := finds
    exact ⟨positive, inside, same _ _ positive inside best,
      fun i low high => same i none (by omega) high (beyond i low high)⟩

/-- After a text of its own length a kind is found if one is matched. -/
theorem Finds.whole {result : Option Match} (finds : Finds K text result) (unread : text ≠ []) {k : Kind}
    (found : K text (some k)) : ∃ best, result = some ⟨best, text.length⟩ ∧ IsBest (some best) (K text) := by
  have positive := List.length_pos_iff.mpr unread
  cases result with
  | none =>
    have nothing := finds text.length positive le_rfl
    rw [List.take_length] at nothing
    exact absurd found (isBest_none_iff.mp nothing k)
  | some m =>
    obtain ⟨_, inside, best, beyond⟩ := finds
    have all : m.length = text.length := by
      by_contra shorter
      have nothing := beyond text.length (by omega) le_rfl
      rw [List.take_length] at nothing
      exact isBest_none_iff.mp nothing k found
    rw [all, List.take_length] at best
    exact ⟨m.kind, by rw [← all], best⟩

/-- The last match of a run: one found on the way, or the one there was before. -/
def FindsLast (K : Findings) (consumed : Nat) (last : Option Match) (text : List Char) (result : Option Match) : Prop :=
  (∃ m, IsLongest K text m ∧ result = some ⟨m.kind, consumed + m.length⟩) ∨ NothingBeyond K text 0 ∧ result = last

/-- A match found after the first character is the last one if nothing is found later. -/
theorem findsLast_first {c : Char} {rest : List Char} {kind : Option Kind} {consumed : Nat} {last : Option Match}
    (best : IsBest kind (K [c])) (beyond : NothingBeyond K (c :: rest) 1) :
    FindsLast K consumed last (c :: rest) ((kind.map fun k => ⟨k, consumed + 1⟩).or last) := by
  cases kind with
  | some k => exact .inl ⟨⟨k, 1⟩, ⟨Nat.one_pos, by simp, best, beyond⟩, rfl⟩
  | none =>
    refine .inr ⟨fun i low high => ?_, rfl⟩
    rcases Nat.eq_or_lt_of_le low with rfl | later
    · exact best
    · exact beyond i later high

theorem nothingBeyond_cons {c : Char} {rest : List Char} {length : Nat}
    (beyond : NothingBeyond (fun more => K (c :: more)) rest length) : NothingBeyond K (c :: rest) (length + 1) := by
  intro i low high
  obtain ⟨i, rfl⟩ := Nat.exists_eq_succ_of_ne_zero (by omega : i ≠ 0)
  exact beyond i (by omega) (by simpa using high)

theorem FindsLast.finds {result : Option Match} (finds : FindsLast K 0 none text result) : Finds K text result := by
  rcases finds with ⟨m, longest, rfl⟩ | ⟨nothing, rfl⟩
  · rw [Nat.zero_add]
    exact longest
  · exact nothing

end Tokenizer

/-! ### Runs of a graph -/

namespace Automaton.Graph

open Tokenizer (FindsLast findsLast_first nothingBeyond_cons)

/-- The last match of a graph on the way through a text, with `consumed` characters read before. -/
def lastMatch (g : Graph) (consumed : Nat) (active : List StateId) (last : Option Match) : List Char → Option Match
  | [] => last
  | c :: rest =>
    let (kind, next) := g.step c active
    let last := (kind.map fun k => ⟨k, consumed + 1⟩).or last
    if next.isEmpty then last else g.lastMatch (consumed + 1) next last rest

theorem lastMatch_congr {g h : Graph} (same : h.states = g.states) (consumed : Nat) (active : List StateId)
    (last : Option Match) (text : List Char) :
    h.lastMatch consumed active last text = g.lastMatch consumed active last text := by
  have step : ∀ c active, h.step c active = g.step c active := fun c active => by
    unfold step state
    rw [same]
  induction text generalizing consumed active last with
  | nil => rfl
  | cons c rest ih =>
    unfold lastMatch
    rw [step]
    dsimp only
    rw [ih]

/-- The last match of a graph is found at the states that the text enters. -/
theorem lastMatch_findsLast {base closed named : Graph} {sem : Standing} {starts : Set Nat} {active : List StateId}
    (labelled : Labelled closed named) (completed : Completed base sem closed)
    (activeStates : Active base sem closed named starts active) (consumed : Nat) (last : Option Match) (text : List Char) :
    FindsLast (KindFound base closed starts) consumed last text (named.lastMatch consumed active last text) := by
  induction text generalizing consumed last starts active with
  | nil =>
    refine .inr ⟨fun i low high => ?_, rfl⟩
    have : i ≤ 0 := high
    omega
  | cons c rest ih =>
    have best := activeStates.kind labelled completed c
    have after := activeStates.step labelled completed c
    unfold lastMatch
    dsimp only
    split
    · rename_i stops
      refine findsLast_first best fun i low high => ?_
      have nothing := (after.eq_nil_iff labelled completed).mp (List.isEmpty_iff.mp stops)
      obtain ⟨i, rfl⟩ := Nat.exists_eq_succ_of_ne_zero (by omega : i ≠ 0)
      rw [List.take_succ_cons, Tokenizer.isBest_none_iff]
      rintro k ⟨s, member, _⟩
      rw [entered, entered_of_nothing nothing fun empty => ?_] at member
      · cases member
      · rw [List.take_eq_nil_iff] at empty
        rcases empty with zero | noMore
        · omega
        · subst noMore
          simp at high
          omega
    · rcases ih after (consumed + 1) _ with ⟨m, longest, result⟩ | ⟨nothing, result⟩
      · refine .inl ⟨⟨m.kind, m.length + 1⟩, ⟨Nat.succ_pos _, ?_, longest.best, nothingBeyond_cons longest.beyond⟩, ?_⟩
        · exact Nat.succ_le_succ longest.inside
        · rw [result, Nat.add_assoc, Nat.add_comm 1]
      · rw [result]
        exact findsLast_first best (nothingBeyond_cons nothing)

/-- The states of a name: those of the group of this name, or else the state itself. -/
def statesOf (g : Graph) (name : EntryName) : List StateId :=
  let members := if name < g.nameCount then [name] else ((g.groups[name - g.nameCount]?).map (·.members)).getD []
  members.filterMap (g.named[·]?)

theorem statesOf_eq {g : Graph} {name : EntryName} {members : List EntryName} (stands : StandsFor g (some name) members) :
    g.statesOf name = members.filterMap (g.named[·]?) := by
  unfold statesOf
  rcases stands with ⟨rfl, small⟩ | ⟨i, place, rfl⟩
  · rw [if_pos small]
  · rw [if_neg (Nat.not_lt.mpr (Nat.le_add_right _ _)), Nat.add_sub_cancel_left, place]
    rfl

/-- The states named first go for all others of their names. -/
theorem step_firsts {closed named : Graph} (labelled : Labelled closed named) {active : List StateId}
    (known : ∀ s ∈ active, (named.state s).name.isSome = true) {members : List EntryName}
    (same : ∀ n, n ∈ members ↔ ∃ s ∈ active, (named.state s).name = some n) (c : Char) :
    named.step c (members.filterMap (named.named[·]?)) = named.step c active := by
  have reports : ∀ s : Nat, (named.state s).name.isSome = true → (named.state s).reported = closed.kindAfter s := by
    intro s hasName
    obtain ⟨n, name⟩ := Option.isSome_iff_exists.mp hasName
    exact (labelled.known s n name).2.1
  have accepts : ∀ s r : Nat, Alike closed s r → (named.state s).accepts c = (named.state r).accepts c := by
    intro s r alike
    unfold State.accepts
    rw [labelled.same.moves, labelled.same.moves, alike.moves]
  have listed : ∀ s r : Nat, Alike closed s r → named.listAfter s = named.listAfter r := by
    intro s r alike
    rw [labelled.same.listAfter, labelled.same.listAfter, alike.list]
  have pairs : ∀ P : Nat → Prop, (∀ s r : Nat, Alike closed s r → (named.state s).name.isSome = true →
      (named.state r).name.isSome = true → (P s ↔ P r)) →
      ((∃ s ∈ members.filterMap (named.named[·]?), P s) ↔ ∃ s ∈ active, P s) := by
    intro P keeps
    constructor
    · rintro ⟨r, member, holds⟩
      obtain ⟨n, inside, place⟩ := List.mem_filterMap.mp member
      obtain ⟨s, inActive, name⟩ := (same n).mp inside
      obtain ⟨_, _, first, again, alike⟩ := labelled.known s n name
      obtain rfl := Option.some.inj (place.symm.trans again)
      have nameR := labelled.first n r place
      exact ⟨s, inActive, (keeps s r alike (by rw [name]; rfl) (by rw [nameR]; rfl)).mpr holds⟩
    · rintro ⟨s, inActive, holds⟩
      obtain ⟨n, name⟩ := Option.isSome_iff_exists.mp (known s inActive)
      obtain ⟨_, _, r, place, alike⟩ := labelled.known s n name
      have nameR := labelled.first n r place
      exact ⟨r, List.mem_filterMap.mpr ⟨n, (same n).mpr ⟨s, inActive, name⟩, place⟩,
        (keeps s r alike (by rw [name]; rfl) (by rw [nameR]; rfl)).mp holds⟩
  refine Prod.ext ((step_kind _).unique ((step_kind active).congr fun k => ?_)) ((step_ascending _).ext (step_ascending _) fun t => ?_)
  · refine (pairs _ fun s r alike nameS nameR => ?_).symm
    rw [accepts s r alike, reports s nameS, reports r nameR, alike.kind]
  · rw [mem_step, mem_step]
    refine pairs _ fun s r alike _ _ => ?_
    rw [accepts s r alike, listed s r alike]

theorem lastMatch_firsts {closed named : Graph} (labelled : Labelled closed named) {active : List StateId}
    (known : ∀ s ∈ active, (named.state s).name.isSome = true) {members : List EntryName}
    (same : ∀ n, n ∈ members ↔ ∃ s ∈ active, (named.state s).name = some n) (consumed : Nat) (last : Option Match)
    (text : List Char) : named.lastMatch consumed (members.filterMap (named.named[·]?)) last text =
      named.lastMatch consumed active last text := by
  cases text with
  | nil => rfl
  | cons c rest =>
    unfold lastMatch
    rw [step_firsts labelled known same]

end Automaton.Graph

/-! ### Runs of a table -/

namespace Tokenizer

variable {t : Tokenizer} {offset : Nat} {closed named g : Graph} {active : List StateId} {names : List EntryName}

theorem SameActive.eq_nil_iff (same : SameActive offset g active names) : names = [] ↔ active = [] := by
  constructor
  · intro empty
    rw [List.eq_nil_iff_forall_not_mem]
    intro s member
    obtain ⟨n, known⟩ := Option.isSome_iff_exists.mp (same.named s member)
    have listed := same.mem_iff.mpr ⟨s, member, n, known, rfl⟩
    rw [empty] at listed
    cases listed
  · rintro rfl
    rw [List.eq_nil_iff_forall_not_mem]
    intro n member
    obtain ⟨s, none, _⟩ := same.mem_iff.mp member
    cases none

/-- A run of the table is a run of the graph. -/
theorem Exports.run (exports : Exports t offset closed named g) (consumed : Nat) (last : Option Match)
    (same : SameActive offset g active names) {text : List Char} (basic : ∀ c ∈ text, c.toNat ≤ Text.lastCode) :
    t.run consumed names last text = .ok (named.lastMatch consumed active last text) := by
  induction text generalizing consumed last active names with
  | nil => rfl
  | cons c rest ih =>
    obtain ⟨next, read, reached⟩ := exports.read same (basic c List.mem_cons_self)
    rw [exports.same.step] at read reached
    unfold Tokenizer.run Graph.lastMatch
    rw [read]
    show (if next.isEmpty = true then _ else _) = Except.ok (if (named.step c active).2.isEmpty = true then _ else _)
    by_cases stops : next = []
    · rw [if_pos (List.isEmpty_iff.mpr stops), if_pos (List.isEmpty_iff.mpr (reached.eq_nil_iff.mp stops))]
      rfl
    · rw [if_neg (mt List.isEmpty_iff.mp stops), if_neg (mt List.isEmpty_iff.mp (mt reached.eq_nil_iff.mpr stops))]
      exact ih (consumed + 1) _ reached fun d member => basic d (List.mem_cons_of_mem _ member)

theorem runFrom_eq_run (name : Option EntryName) (consumed : Nat) (text : List Char) :
    t.runFrom name consumed text = t.run consumed (t.opening name) none (text.drop consumed) := by
  cases name with
  | some n => rfl
  | none =>
    cases drop : text.drop consumed with
    | nil => rfl
    | cons c rest => rfl

/-- A name opens the states of its members. -/
theorem Exports.sameActive (exports : Exports t offset closed named g) {name : EntryName} {members : List EntryName}
    (stands : named.StandsFor (some name) members) (ordered : Ascending members) (small : ∀ n ∈ members, n < named.nameCount) :
    SameActive offset g (named.statesOf name) (t.opening (some (name + offset))) := by
  have first : ∀ n ∈ members, ∃ r, named.named[n]? = some r ∧ (g.state r).name = some n := by
    intro n member
    have place := Array.getElem?_eq_getElem (small n member)
    exact ⟨_, place, (exports.name _).trans (exports.labelled.first n _ place)⟩
  rw [Automaton.Graph.statesOf_eq stands]
  refine ⟨fun s member => ?_, ?_⟩
  · obtain ⟨n, inside, place⟩ := List.mem_filterMap.mp member
    obtain ⟨r, again, known⟩ := first n inside
    obtain rfl := Option.some.inj (place.symm.trans again)
    rw [known]
    rfl
  · have opens := exports.opens stands
    rw [Option.map_some] at opens
    have own : (members.filterMap (named.named[·]?)).filterMap (fun id => (g.state id).name) = members := by
      rw [List.filterMap_filterMap]
      conv_rhs => rw [← List.filterMap_some (l := members)]
      refine List.filterMap_congr fun n member => ?_
      obtain ⟨r, place, known⟩ := first n member
      rw [place]
      exact known
    rw [opens]
    unfold Graph.entryNames
    rw [own]
    refine List.Perm.map _ ?_
    rw [List.perm_ext_iff_of_nodup (ordered.imp Nat.ne_of_lt) ((ascending_ascending members).imp Nat.ne_of_lt)]
    exact fun n => mem_ascending.symm

end Tokenizer

end TokenTables
