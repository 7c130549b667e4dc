import TokenTables.Automaton.Merging
import TokenTables.Proofs.Automaton.Gateway
import TokenTables.Proofs.Automaton.Made

/-!
Closing without merging. Whatever the epsilon moves of a graph are, the rounds end, and the list of each state comes to
hold the states with moves behind it, each once.
-/

namespace TokenTables.Automaton.Graph

open Relation (ReflTransGen)
open Kind (IsBest NoLater)

variable {base g h last : Graph} {id : Nat} {accepted : List (StateId × Kind)}

/-- Nothing is merged. -/
def MergeRule.none : MergeRule := ⟨false, false⟩

theorem mergeAll_none (g : Graph) (ids : List Nat) : mergeAll MergeRule.none g ids = (g, ids) := by
  rw [mergeAll]
  simp [MergeRule.none]

/-! ### Pruning -/

/-- Keeps the states with moves in the list of `id`. -/
def prune (g : Graph) (id : Nat) : Graph :=
  g.alter id fun s => { s with
    epsilon := (g.state id).epsilon.filter fun id => (g.state id).hasMoves
    keptEpsilon := ((g.state id).epsilon.filter fun id => (g.state id).hasMoves).length }

theorem completeState_none (g : Graph) (id : Nat) : completeState MergeRule.none g id = (g.close id).prune id := by
  unfold completeState
  dsimp only
  rw [mergeAll_none]
  rfl

theorem prune_other {s : Nat} (different : s ≠ id) : (g.prune id).state s = g.state s := state_alter_other different

theorem prune_state (s : Nat) : (g.prune id).state s = { g.state s with
    epsilon := ((g.prune id).state s).epsilon, keptEpsilon := ((g.prune id).state s).keptEpsilon } := by
  unfold prune
  rw [state_alter]
  split
  · rename_i here
    rw [here.1]
  · rfl

theorem prune_sub {s x : Nat} (edge : x ∈ ((g.prune id).state s).epsilon) : x ∈ (g.state s).epsilon := by
  unfold prune at edge
  rw [state_alter] at edge
  split at edge
  · rename_i here
    rw [here.1]
    exact (List.mem_filter.mp edge).1
  · exact edge

theorem prune_kind {s : Nat} : ((g.prune id).state s).kind = (g.state s).kind := by
  rw [prune_state s]

theorem prune_matters (s : Nat) : ((g.prune id).state s).matters = (g.state s).matters := by
  rw [prune_state s]
  rfl

theorem prune_keeps {s x : Nat} (edge : x ∈ (g.state s).epsilon) (moves : (g.state x).hasMoves = true) :
    x ∈ ((g.prune id).state s).epsilon := by
  unfold prune
  rw [state_alter]
  split
  · rename_i here
    rw [here.1] at edge
    exact List.mem_filter.mpr ⟨edge, moves⟩
  · exact edge

theorem prune_ascending {s : Nat} (sorted : Ascending (g.state s).epsilon) :
    Ascending ((g.prune id).state s).epsilon := by
  unfold prune
  rw [state_alter]
  split
  · rename_i here
    rw [here.1] at sorted
    exact sorted.filter _
  · exact sorted

/-! ### A graph in the course of closing -/

/-- Epsilon moves and kinds say nothing that is wrong of the built graph. -/
structure Faithful (base g : Graph) : Prop where
  silent : ∀ s x : Nat, x ∈ (g.state s).epsilon → Silent base s x
  ascending : ∀ s : Nat, Ascending (g.state s).epsilon
  kind : ∀ (s : Nat) (k : Kind), (g.state s).kind = some k → Ends base s k

theorem gatherAlong_ascending {ids found : List Nat} (sorted : Ascending found) :
    Ascending (ids.foldl g.gatherOne found) := by
  induction ids generalizing found with
  | nil => exact sorted
  | cons x rest ih =>
    rw [List.foldl_cons]
    rcases gatherOne_cases g found x with ⟨same, _⟩ | ⟨same, _⟩
    · rw [same]
      exact ih (insertNat_ascending sorted)
    · rw [same]
      exact ih sorted

theorem gather_ascending {places i : Nat} {found : List Nat} {kind : Option Kind} (sorted : Ascending found) :
    Ascending (g.gather places i found kind).1 := by
  induction places generalizing i found kind with
  | zero => exact sorted
  | succ places ih =>
    rw [gather]
    split
    · exact sorted
    · exact ih (gatherAlong_ascending sorted)

theorem absorbedList_ascending (sorted : Ascending (g.state id).epsilon) : Ascending (g.absorbedList id) := by
  unfold absorbedList
  split
  · exact insertNat_ascending (gather_ascending sorted)
  · exact gather_ascending sorted

theorem Faithful.absorb (faithful : Faithful base g) (inside : id < g.size) : Faithful base (g.absorb id).1 := by
  have same := absorb_state_same inside
  refine ⟨fun s x edge => ?_, fun s => ?_, fun s k kind => ?_⟩
  all_goals by_cases here : s = id
  · subst here
    rw [same] at edge
    exact absorb_list (fun q path x edge => path.trans (faithful.silent q x edge)) .refl (faithful.silent s) x edge
  · rw [absorb_state_other here] at edge
    exact faithful.silent s x edge
  · subst here
    rw [same]
    exact absorbedList_ascending (faithful.ascending s)
  · rw [absorb_state_other here]
    exact faithful.ascending s
  · subst here
    rw [same] at kind
    have source := @gather_kind g (g.state s).epsilon (Silent base s)
      (fun q path x edge _ => path.trans (faithful.silent q x edge)) _ _ _ (faithful.silent s) k kind
    rcases source with old | ⟨q, path, old⟩
    · exact faithful.kind s k old
    · obtain ⟨f, further, kindF⟩ := faithful.kind q k old
      exact ⟨f, path.trans further, kindF⟩
  · rw [absorb_state_other here] at kind
    exact faithful.kind s k kind

theorem Faithful.openPath (faithful : Faithful base g) {s t : Nat} (path : OpenPath g s t) : Silent base s t := by
  induction path with
  | refl => exact .refl
  | tail _ edge ih => exact ih.trans (faithful.silent _ _ edge.1)

theorem faithful_kept : KeptOn g (Faithful base) := fun _ _ _ _ isOpen faithful => faithful.absorb isOpen.inside

/-- The states from `first` on have been closed and pruned, and with them those behind them. The others are as they
were. -/
structure Partway (base : Graph) (first : Nat) (g : Graph) : Prop extends Faithful base g where
  size : g.size = base.size
  state : ∀ s : Nat, g.state s = { base.state s with
    epsilon := (g.state s).epsilon, kind := (g.state s).kind
    isClosed := (g.state s).isClosed, keptEpsilon := (g.state s).keptEpsilon }
  better : ∀ s : Nat, NoLater (g.state s).kind (base.state s).kind
  closed : ∀ s, s < base.size → ((g.state s).isClosed = true ↔ s ∈ base.BehindFrom first)
  untouched : ∀ s : Nat, (g.state s).isClosed = false → g.state s = base.state s
  complete : ∀ s : Nat, (g.state s).isClosed = true → ∀ x : Nat, Silent base s x → (base.state x).hasMoves = true →
    x ∈ (g.state s).epsilon
  pruned : ∀ s, first ≤ s → s < base.size → (∀ x : Nat, x ∈ (g.state s).epsilon → (base.state x).hasMoves = true) ∧
    (g.state s).keptEpsilon = (g.state s).epsilon.length

variable {first : Nat}

theorem Laid.partway (laid : Laid g accepted) : Partway g g.size g where
  silent _ _ edge := .single edge
  ascending := laid.ascending
  kind s k kind := ⟨s, .refl, kind⟩
  size := rfl
  state _ := rfl
  better _ := .refl _
  closed s inside := by
    rw [laid.isOpen s]
    refine iff_of_false Bool.false_ne_true ?_
    rintro ⟨j, beyond, below, _⟩
    exact absurd below (Nat.not_lt.mpr beyond)
  untouched _ _ := rfl
  complete s closed := by
    rw [laid.isOpen s] at closed
    cases closed
  pruned s beyond inside := absurd inside (Nat.not_lt.mpr beyond)

theorem silent_inside (range : InRange base) {s x : Nat} (inside : s < base.size) (path : Silent base s x) :
    x < base.size := by
  rcases ReflTransGen.cases_tail path with same | ⟨q, _, edge⟩
  · exact same ▸ inside
  · exact range q x edge

theorem Partway.range (partway : Partway base first g) (range : InRange base) : InRange g := by
  intro s q edge
  have inside := lt_size_of_mem_epsilon edge
  rw [partway.size] at inside ⊢
  exact silent_inside range inside (partway.silent s q edge)

theorem Partway.hasMoves (partway : Partway base first g) (s : Nat) :
    (g.state s).hasMoves = (base.state s).hasMoves := by
  rw [partway.state s]
  rfl

theorem Partway.open_of_silent (partway : Partway base first g) (range : InRange base) {s x : Nat} (isOpen : Open g x)
    (path : Silent base s x) (inside : s < base.size) : Open g s := by
  refine ⟨by rwa [partway.size], ?_⟩
  rw [Bool.eq_false_iff]
  intro closed
  have behind : x ∈ base.BehindFrom first := by
    obtain ⟨j, le, below, before⟩ := (partway.closed s inside).mp closed
    exact ⟨j, le, below, before.trans path⟩
  have status := (partway.closed x (silent_inside range inside path)).mpr behind
  rw [isOpen.unclosed] at status
  cases status

theorem Partway.openPath (partway : Partway base first g) (range : InRange base) {s x : Nat} (isOpen : Open g x)
    (path : Silent base s x) (inside : s < base.size) : OpenPath g s x := by
  induction path using ReflTransGen.head_induction_on with
  | refl => exact .refl
  | @head s q edge after ih =>
    have insideQ := range s q edge
    have openS := partway.open_of_silent range isOpen (after.head edge) inside
    have openQ := partway.open_of_silent range isOpen after insideQ
    refine ReflTransGen.head ⟨?_, openQ⟩ (ih insideQ)
    rwa [partway.untouched s openS.unclosed]

/-! ### One state -/

/-- Closing `id`, before the last round and before the states are marked. -/
structure PlainEnd (base : Graph) (first : Nat) (g last h : Graph) (id : Nat) : Prop extends Ended g last h id where
  partway : Partway base first g
  range : InRange base
  inside : id < base.size
  faithfulLast : Faithful base last
  faithful : Faithful base h

theorem Partway.close (partway : Partway base first g) (range : InRange base) (inside : id < base.size) :
    ∃ last, PlainEnd base first g last (last.absorbAll (last.openReach id)).1 id ∧ Settles id g (g.close id) ∧
      g.close id = (last.absorbAll (last.openReach id)).1.markClosed (last.openReach id) := by
  have settles := close_settles (partway.range range) id
  obtain ⟨last, quieted, faithful, result⟩ :=
    settles.quieted faithful_kept (.refl g) (partway.range range) (fun _ _ => rfl) partway.toFaithful
  exact ⟨last, ⟨quieted.ended, partway, range, inside, faithful,
    absorbAll_keptOn faithful_kept (.refl last) quieted.range (fun s => open_of_mem_openReach) faithful⟩, settles, result⟩

theorem PlainEnd.mem_iff (ended : PlainEnd base first g last h id) {s : Nat} :
    s ∈ last.openReach id ↔ Open g s ∧ Silent base id s := by
  constructor
  · intro member
    exact ⟨ended.wasOpen member, ended.faithfulLast.openPath (mem_openReach.mp member).2⟩
  · rintro ⟨isOpen, path⟩
    have openPath := ended.partway.openPath ended.range isOpen path ended.inside
    have root := ended.partway.open_of_silent ended.range isOpen path ended.inside
    exact ended.before.grows.openReach (mem_openReach.mpr ⟨root, openPath⟩)

/-- Whatever has moves behind a walked state is in its list. -/
theorem PlainEnd.covers (ended : PlainEnd base first g last h id) {s x : Nat} (path : Silent base s x)
    (moves : (base.state x).hasMoves = true) (known : s ∈ last.openReach id ∨ (g.state s).isClosed = true) :
    x ∈ (h.state s).epsilon := by
  have same : (last.state x).hasMoves = (base.state x).hasMoves :=
    (ended.before.grows.hasMoves x).trans (ended.partway.hasMoves x)
  induction path using ReflTransGen.head_induction_on with
  | refl =>
    rcases known with walked | status
    · exact ended.settled.itself x walked (same.trans moves)
    · exact ended.grows.more x x (ended.partway.complete x status x .refl moves)
  | @head s q edge after ih =>
    rcases known with walked | status
    · have wasEdge : q ∈ (g.state s).epsilon := by
        rwa [ended.partway.untouched s (ended.wasOpen walked).unclosed]
      have insideQ : q < g.size := ended.partway.size ▸ ended.range s q edge
      have matters : (last.state x).matters = true := by
        unfold State.matters
        rw [same, moves, Bool.or_true]
      exact ended.settled.behind s walked q (ended.grows.more s q wasEdge) x
        (ih (ended.next walked wasEdge insideQ)) matters
    · exact ended.grows.more s x (ended.partway.complete s status x (after.head edge) moves)

theorem PlainEnd.closed (ended : PlainEnd base (id + 1) g last h id) {s : Nat} (inside : s < base.size) :
    ((h.markClosed (last.openReach id)).state s).isClosed = true ↔ s ∈ base.BehindFrom id := by
  have before := ended.partway.closed s inside
  by_cases walked : s ∈ last.openReach id
  · rw [ended.marked walked]
    exact iff_of_true rfl ⟨id, Nat.le_refl _, ended.inside, (ended.mem_iff.mp walked).2⟩
  · rw [ended.apart walked, before]
    constructor
    · rintro ⟨j, le, below, path⟩
      exact ⟨j, by omega, below, path⟩
    · rintro ⟨j, le, below, path⟩
      rcases Nat.eq_or_lt_of_le le with rfl | later
      · rw [← before, ← Bool.not_eq_false]
        intro status
        exact walked (ended.mem_iff.mpr ⟨⟨ended.partway.size.symm ▸ inside, status⟩, path⟩)
      · exact ⟨j, later, below, path⟩

theorem PlainEnd.complete (ended : PlainEnd base first g last h id) {s x : Nat}
    (closed : ((h.markClosed (last.openReach id)).state s).isClosed = true) (path : Silent base s x)
    (moves : (base.state x).hasMoves = true) : x ∈ ((h.markClosed (last.openReach id)).state s).epsilon := by
  by_cases walked : s ∈ last.openReach id
  · rw [ended.marked walked]
    exact ended.covers path moves (.inl walked)
  · rw [ended.apart walked] at closed ⊢
    exact ended.partway.complete s closed x path moves

theorem PlainEnd.partwayAfter (ended : PlainEnd base (id + 1) g last h id) :
    Partway base id ((h.markClosed (last.openReach id)).prune id) := by
  have partway := ended.partway
  have closes := ended.closes
  have closed := fun s => @PlainEnd.closed _ _ _ _ _ ended s
  have complete := fun s x => @PlainEnd.complete _ _ _ _ _ _ ended s x
  have epsilon := ended.marked_epsilon
  have kind := ended.marked_kind
  generalize h.markClosed (last.openReach id) = marked at closes closed complete epsilon kind
  have state : ∀ s : Nat, (marked.prune id).state s = { base.state s with
      epsilon := ((marked.prune id).state s).epsilon, kind := (marked.state s).kind
      isClosed := (marked.state s).isClosed, keptEpsilon := ((marked.prune id).state s).keptEpsilon } := fun s => by
    rw [prune_state s, closes.state s, partway.state s]
  have moves : ∀ s : Nat, (marked.state s).hasMoves = (base.state s).hasMoves := fun s => by
    rw [closes.state s]
    exact partway.hasMoves s
  have size : marked.size = base.size := closes.size.trans partway.size
  refine {
    silent := fun s x edge => ?_
    ascending := fun s => prune_ascending ?_
    kind := fun s k same => ?_
    size := size_alter.trans size
    state := fun s => ?_
    better := fun s => ?_
    closed := fun s inside => ?_
    untouched := fun s isOpen => ?_
    complete := fun s status x path movesX => ?_
    pruned := fun s le inside => ?_ }
  · have edge := prune_sub edge
    rw [epsilon] at edge
    exact ended.faithful.silent s x edge
  · rw [epsilon]
    exact ended.faithful.ascending s
  · rw [prune_kind, kind] at same
    exact ended.faithful.kind s k same
  · rw [state s]
  · rw [prune_kind, kind]
    exact (ended.grows.better s).trans (partway.better s)
  · rw [prune_state s]
    exact closed s inside
  · rw [prune_state s] at isOpen
    have different : s ≠ id := by
      rintro rfl
      have done := closes.done (partway.size.symm ▸ ended.inside)
      rw [isOpen] at done
      cases done
    have same := closes.ofOpen s isOpen
    rw [prune_other different, same]
    rw [same] at isOpen
    exact partway.untouched s isOpen
  · rw [prune_state s] at status
    exact prune_keeps (complete s x status path movesX) ((moves x).trans movesX)
  · by_cases here : s = id
    · subst here
      have kept : ((marked.prune s).state s) = { marked.state s with
          epsilon := (marked.state s).epsilon.filter fun x => (marked.state x).hasMoves
          keptEpsilon := ((marked.state s).epsilon.filter fun x => (marked.state x).hasMoves).length } :=
        state_alter_same (size.symm ▸ inside)
      rw [kept]
      exact ⟨fun x edge => (moves x).symm.trans (List.mem_filter.mp edge).2, rfl⟩
    · have later : id + 1 ≤ s := by omega
      have wasClosed := (partway.closed s inside).mpr (behindFrom_self later inside)
      rw [prune_other here, closes.ofClosed s wasClosed]
      exact partway.pruned s later inside

/-! ### The whole graph -/

/-- The states are closed and pruned in turn, each in as many rounds as it takes. -/
inductive ClosedInTurn : List StateId → Graph → Graph → Prop where
  | done {g : Graph} : ClosedInTurn [] g g
  | next {g between after : Graph} {id rest} (settles : Settles id g between)
      (later : ClosedInTurn rest (between.prune id) after) : ClosedInTurn (id :: rest) g after

/-- What holds of the whole graph in the end, if closing and pruning one more state keeps it. -/
theorem closedInTurn_partway {I : Graph → Prop} (range : InRange base)
    (kept : ∀ {id g last}, PlainEnd base (id + 1) g last (last.absorbAll (last.openReach id)).1 id → I g →
      I (((last.absorbAll (last.openReach id)).1.markClosed (last.openReach id)).prune id))
    {count : Nat} (partway : Partway base count g) (few : count ≤ base.size) (holds : I g) :
    ClosedInTurn (List.range count).reverse g ((List.range count).reverse.foldl (completeState MergeRule.none) g) ∧
      Partway base 0 ((List.range count).reverse.foldl (completeState MergeRule.none) g) ∧
      I ((List.range count).reverse.foldl (completeState MergeRule.none) g) := by
  induction count generalizing g with
  | zero => exact ⟨.done, partway, holds⟩
  | succ count ih =>
    have inside : count < base.size := few
    obtain ⟨last, ended, settles, result⟩ := partway.close range inside
    rw [reverse_range_succ, List.foldl_cons, completeState_none]
    obtain ⟨later, whole⟩ := ih (result ▸ ended.partwayAfter) (by omega) (result ▸ kept ended holds)
    exact ⟨.next settles later, whole⟩

/-- No states are made, so there is nothing to complete afterwards. -/
theorem completeAll_plain (g : Graph)
    (size : ((List.range g.size).reverse.foldl (completeState MergeRule.none) g).size = g.size) :
    g.completeAll .plain = (List.range g.size).reverse.foldl (completeState MergeRule.none) g := by
  show (List.range' g.size (((List.range g.size).reverse.foldl (completeState MergeRule.none) g).size - g.size)).foldl
    (completeState MergeRule.none) _ = _
  rw [size, Nat.sub_self]
  rfl

theorem Laid.completeAll {I : Graph → Prop} (laid : Laid base accepted)
    (kept : ∀ {id g last}, PlainEnd base (id + 1) g last (last.absorbAll (last.openReach id)).1 id → I g →
      I (((last.absorbAll (last.openReach id)).1.markClosed (last.openReach id)).prune id)) (holds : I base) :
    ClosedInTurn (List.range base.size).reverse base (base.completeAll .plain) ∧
      Partway base 0 (base.completeAll .plain) ∧ I (base.completeAll .plain) := by
  have whole := closedInTurn_partway laid.range kept laid.partway (Nat.le_refl _) holds
  rwa [completeAll_plain base whole.2.1.size]

/-- Closing without merging comes to an end, and the list of a state then holds the states with moves behind it. -/
theorem completeAll_plain_exact (made : Made g accepted) :
    let closed := g.completeAll .plain
    ClosedInTurn (List.range g.size).reverse g closed ∧ closed.size = g.size ∧
      (∀ s : Nat, (closed.state s).moves = (g.state s).moves ∧ (closed.state s).next = (g.state s).next) ∧
      ∀ s, s < g.size → Ascending (closed.state s).epsilon ∧
        (∀ x : Nat, x ∈ (closed.state s).epsilon ↔ (g.state x).hasMoves = true ∧ Silent g s x) ∧
        (closed.state s).keptEpsilon = (closed.state s).epsilon.length := by
  intro closed
  obtain ⟨inTurn, whole, _⟩ := made.laid.completeAll (I := fun _ => True) (fun _ _ => trivial) trivial
  refine ⟨inTurn, whole.size, fun s => ?_, fun s inside => ?_⟩
  · rw [whole.state s]
    exact ⟨rfl, rfl⟩
  · obtain ⟨useful, kept⟩ := whole.pruned s (Nat.zero_le s) inside
    have status := (whole.closed s inside).mpr (behindFrom_self (Nat.zero_le s) inside)
    refine ⟨whole.ascending s, fun x => ⟨fun edge => ⟨useful x edge, whole.silent s x edge⟩, ?_⟩, kept⟩
    rintro ⟨moves, path⟩
    exact whole.complete s status x path moves

/-- Settings without definitions. -/
def bareSettings : BuildSettings := ⟨[], false, false⟩

/-- A letter again and again: an epsilon circle through a state that moves. -/
def letterCircle : Graph :=
  ((({} : Graph).build bareSettings (.literal .unknown "a")).graph.linkEpsilon 1 0).linkEpsilon 0 1

/-- Both states come to list the one that moves. -/
theorem letterCircle_closed : Made letterCircle [] ∧ ((letterCircle.completeAll .plain).state 1).epsilon = [0] := by
  have made : Made letterCircle [] :=
    .link (.link (.build .empty _ _) (by decide) (by decide)) (by decide) (by decide)
  refine ⟨made, ?_⟩
  obtain ⟨sorted, exact, _⟩ := (completeAll_plain_exact made).2.2.2 1 (by decide)
  refine sorted.ext (List.pairwise_singleton _ _) fun x => ?_
  rw [exact x, List.mem_singleton]
  constructor
  · rintro ⟨moves, -⟩
    have inside : x < 2 := lt_size_of_hasMoves moves
    have still : (letterCircle.state 1).hasMoves = false := by rfl
    by_contra other
    obtain rfl : x = 1 := by omega
    rw [still] at moves
    cases moves
  · rintro rfl
    exact ⟨by rfl, .single (by decide)⟩

end TokenTables.Automaton.Graph
