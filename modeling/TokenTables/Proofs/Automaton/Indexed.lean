import TokenTables.Proofs.Automaton.Naming
import TokenTables.Proofs.Automaton.PlaneMoves
import TokenTables.Proofs.Automaton.Sprouting

/-!
Graphs that are built, closed and named, in any order. Each name has a first state, and whatever shares the name moves as
that state does; no move leaves the plane, and no state has a dispatch method yet.
-/

namespace TokenTables.Automaton.Graph

/-- The first states of names are in order, and dispatch can begin. -/
structure Indexed (g : Graph) : Prop where
  /-- A state is the first of its name unless it is an alias, and then it moves as the first one does. -/
  first : ∀ (s : Nat) (n : EntryName), (g.state s).name = some n →
    ∃ f : Nat, g.named[n]? = some f ∧ (g.state f).moves = (g.state s).moves ∧ ((g.state s).isAlias = false → f = s)
  inside : ∀ (n : EntryName) (f : StateId), g.named[n]? = some f → f < g.size
  clean : ∀ s : Nat, (g.state s).dispatch = none
  inPlane : g.InPlane

variable {g h : Graph} {id source target : StateId}

theorem indexed_empty : Indexed {} := by
  have blank : ∀ s : Nat, ({} : Graph).state s = {} := fun s => state_of_size_le (Nat.zero_le s)
  refine ⟨fun s n known => ?_, fun n f place => ?_, fun s => ?_, inPlane_empty⟩
  · rw [blank] at known
    cases known
  · cases place
  · rw [blank]

/-! ### Steps that name nothing -/

/-- What a name depends on is the same. -/
structure SameFace (s t : State) : Prop where
  moves : t.moves = s.moves
  name : t.name = s.name
  isAlias : t.isAlias = s.isAlias
  dispatch : t.dispatch = s.dispatch

theorem Indexed.congr (indexed : g.Indexed) (size : h.size = g.size) (named : h.named = g.named)
    (same : ∀ s : Nat, SameFace (g.state s) (h.state s)) : h.Indexed where
  first s n known := by
    rw [(same s).name] at known
    rw [named, (same s).moves, (same s).isAlias]
    obtain ⟨f, place, moves, own⟩ := indexed.first s n known
    exact ⟨f, place, (same f).moves.trans moves, own⟩
  inside n f place := by
    rw [named] at place
    rw [size]
    exact indexed.inside n f place
  clean s := (same s).dispatch.trans (indexed.clean s)
  inPlane s := by
    rw [(same s).moves]
    exact indexed.inPlane s

theorem Indexed.alter (indexed : g.Indexed) {change : State → State}
    (same : SameFace (g.state id) (change (g.state id))) : (g.alter id change).Indexed := by
  refine indexed.congr size_alter rfl fun s => ?_
  rw [state_alter]
  split
  · rename_i here
    rw [here.1]
    exact same
  · exact ⟨rfl, rfl, rfl, rfl⟩

theorem Indexed.linkEpsilon (indexed : g.Indexed) : (g.linkEpsilon source target).Indexed :=
  indexed.alter ⟨rfl, rfl, rfl, rfl⟩

theorem Indexed.acceptAt (indexed : g.Indexed) (kind : Kind) : (g.acceptAt id kind).Indexed :=
  indexed.alter ⟨rfl, rfl, rfl, rfl⟩

/-- A state before naming. -/
structure Nameless (s : State) : Prop where
  name : s.name = none
  dispatch : s.dispatch = none
  inPlane : s.moves.InPlane

theorem nameless_blank : Nameless {} := ⟨rfl, rfl, Moves.inPlane_empty⟩

theorem Indexed.nameless_bare (indexed : g.Indexed) (id : StateId) (next : Option StateId) :
    Nameless { (g.state id).bare with next } := ⟨rfl, rfl, indexed.inPlane id⟩

theorem Nameless.merge {s other : State} (nameless : Nameless s) (inPlane : other.moves.InPlane) :
    Nameless (s.merge other) := ⟨nameless.name, nameless.dispatch, nameless.inPlane.union inPlane⟩

/-- Growing by nameless states. -/
theorem Indexed.grow (indexed : g.Indexed) (larger : g.size ≤ h.size) (named : h.named = g.named)
    (kept : ∀ s : Nat, s < g.size → h.state s = g.state s) (fresh : ∀ s : Nat, g.size ≤ s → Nameless (h.state s)) :
    h.Indexed where
  first s n known := by
    rcases Nat.lt_or_ge s g.size with old | new
    · rw [kept s old] at known ⊢
      obtain ⟨f, place, moves, own⟩ := indexed.first s n known
      exact ⟨f, named ▸ place, by rw [kept f (indexed.inside n f place), moves], own⟩
    · rw [(fresh s new).name] at known
      cases known
  inside n f place := (indexed.inside n f (named ▸ place)).trans_le larger
  clean s := by
    rcases Nat.lt_or_ge s g.size with old | new
    · rw [kept s old]
      exact indexed.clean s
    · exact (fresh s new).dispatch
  inPlane s := by
    rcases Nat.lt_or_ge s g.size with old | new
    · rw [kept s old]
      exact indexed.inPlane s
    · exact (fresh s new).inPlane

theorem Indexed.addState (indexed : g.Indexed) {new : State} (nameless : Nameless new) : (g.addState new).Indexed := by
  refine indexed.grow (by simp) rfl (fun s old => ?_) fun s beyond => ?_
  · rw [state_addState, if_neg (Nat.ne_of_lt old)]
  · rw [state_addState]
    split
    · exact nameless
    · rw [state_of_size_le beyond]
      exact nameless_blank

theorem Indexed.withInitial (indexed : g.Indexed) : g.withInitial.1.Indexed := by
  unfold Graph.withInitial
  split
  · exact indexed
  · exact (indexed.addState nameless_blank).congr rfl rfl fun _ => ⟨rfl, rfl, rfl, rfl⟩

theorem Indexed.build (indexed : g.Indexed) (settings : BuildSettings) (r : Regex) :
    (g.build settings r).graph.Indexed := by
  have sprouted := build_sprouted g settings r
  have named := congrArg Graph.named sprouted.frame
  refine indexed.grow sprouted.size_le named sprouted.kept fun s beyond => ?_
  have inPlane := indexed.inPlane.build settings r s
  rcases Nat.lt_or_ge s (g.build settings r).graph.size with new | out
  · have unmarked := sprouted.fresh s beyond new
    unfold Unmarked at unmarked
    exact ⟨by rw [unmarked], by rw [unmarked], inPlane⟩
  · rw [state_of_size_le out]
    exact nameless_blank

/-! ### Closing -/

theorem Indexed.absorb (indexed : g.Indexed) (id : StateId) : (g.absorb id).1.Indexed :=
  indexed.alter ⟨rfl, rfl, rfl, rfl⟩

theorem Indexed.absorbAll (indexed : g.Indexed) (ids : List StateId) : (g.absorbAll ids).1.Indexed :=
  List.foldlRecOn ids _ (motive := fun found : Graph × Bool => found.1.Indexed) indexed
    fun _ before id _ => before.absorb id

theorem Indexed.markClosed (indexed : g.Indexed) (ids : List StateId) : (g.markClosed ids).Indexed :=
  List.foldlRecOn ids _ indexed fun _ before _ _ => before.alter ⟨rfl, rfl, rfl, rfl⟩

theorem Indexed.closeRounds {rounds : Nat} (indexed : g.Indexed) : (closeRounds id rounds g).Indexed := by
  induction rounds generalizing g with
  | zero => exact indexed
  | succ rounds ih =>
    have absorbed := indexed.absorbAll (g.openReach id)
    rw [Graph.closeRounds]
    dsimp only
    split
    · exact ih absorbed
    · exact absorbed.markClosed _

theorem Indexed.close (indexed : g.Indexed) (id : StateId) : (g.close id).Indexed := indexed.closeRounds

theorem Indexed.closeAll (indexed : g.Indexed) : g.closeAll.Indexed :=
  List.foldlRecOn _ _ indexed fun _ before id _ => before.close id

theorem Indexed.addMerged (indexed : g.Indexed) (members : List StateId) : (g.addMerged members).1.Indexed := by
  cases members with
  | nil => exact indexed.addState nameless_blank
  | cons first others =>
    have merged : Nameless (others.foldl (fun s id => { s with
        kind := Kind.better s.kind (g.state id).kind
        isFinal := s.isFinal || (g.state id).isFinal }) { (g.state first).bare with next := some (g.size + 1) }) :=
      List.foldlRecOn others _ (indexed.nameless_bare first _) fun _ before _ _ => ⟨before.name, before.dispatch, before.inPlane⟩
    exact List.foldlRecOn _ _ ((indexed.addState merged).addState nameless_blank) fun _ before _ _ => before.linkEpsilon

theorem Indexed.mergedState (indexed : g.Indexed) (members : List StateId) : (g.mergedState members).1.Indexed := by
  unfold Graph.mergedState
  split
  · exact indexed
  · exact (indexed.addMerged members).congr rfl rfl fun _ => ⟨rfl, rfl, rfl, rfl⟩

theorem Indexed.mergeEqualMoves (indexed : g.Indexed) (kept todo : List StateId) :
    (g.mergeEqualMoves kept todo).1.Indexed := by
  -- The state that replaces others goes to the end of the list, so the induction is on its length.
  generalize bound : todo.length = n
  induction n using Nat.strongRecOn generalizing g kept todo with
  | ind n ih =>
    cases todo with
    | nil =>
      rw [Graph.mergeEqualMoves]
      exact indexed
    | cons first rest =>
      rw [Graph.mergeEqualMoves]
      split
      · exact ih rest.length (by rw [← bound]; exact Nat.lt_succ_self _) indexed _ rest rfl
      · rename_i same more others split
        have shorter := length_lt_of_partition split
        exact ih _ (by rw [← bound, List.length_append]; exact Nat.succ_lt_succ shorter) (indexed.mergedState _) _ _ rfl

theorem Indexed.mergeCommonNext (indexed : g.Indexed) (kept todo : List StateId) :
    (g.mergeCommonNext kept todo).1.Indexed := by
  generalize bound : todo.length = n
  induction n using Nat.strongRecOn generalizing g kept todo with
  | ind n ih =>
    cases todo with
    | nil =>
      rw [Graph.mergeCommonNext]
      exact indexed
    | cons first rest =>
      rw [Graph.mergeCommonNext]
      split
      · exact ih rest.length (by rw [← bound]; exact Nat.lt_succ_self _) indexed _ rest rfl
      · rename_i same more others split
        have shorter := length_lt_of_partition split
        have merged := List.foldlRecOn (same :: more) (fun s id => s.merge (g.state id))
          (indexed.nameless_bare first (g.state first).next) fun _ before id _ => before.merge (indexed.inPlane id)
        exact ih _ (by rw [← bound, List.length_append]; exact Nat.succ_lt_succ shorter) (indexed.addState merged) _ _ rfl

theorem Indexed.mergeOnce (indexed : g.Indexed) (rule : MergeRule) (ids : List StateId) :
    (mergeOnce rule g ids).1.Indexed := by
  have equal : (if rule.equalMoves then g.mergeEqualMoves [] ids else (g, ids)).1.Indexed := by
    split
    · exact indexed.mergeEqualMoves [] ids
    · exact indexed
  unfold Graph.mergeOnce
  dsimp only
  split
  · exact equal.mergeCommonNext [] _
  · exact equal

theorem Indexed.mergeAll (indexed : g.Indexed) (rule : MergeRule) (ids : List StateId) : (mergeAll rule g ids).1.Indexed := by
  generalize bound : ids.length = n
  induction n using Nat.strongRecOn generalizing g ids with
  | ind n ih =>
    have once := indexed.mergeOnce rule ids
    rw [mergeAll_eq]
    split
    · rename_i shorter
      exact ih _ (bound ▸ shorter) once _ rfl
    · exact once

theorem Indexed.completeState (indexed : g.Indexed) (rule : MergeRule) (id : StateId) :
    (completeState rule g id).Indexed :=
  ((indexed.close id).mergeAll rule _).alter ⟨rfl, rfl, rfl, rfl⟩

theorem Indexed.completeAll (indexed : g.Indexed) (mode : Closing) : (g.completeAll mode).Indexed :=
  List.foldlRecOn _ _ (List.foldlRecOn _ _ indexed fun _ before id _ => before.completeState _ id)
    fun _ before id _ => before.completeState _ id

/-! ### Naming -/

theorem Indexed.reportNext (indexed : g.Indexed) (id : StateId) : (g.reportNext id).Indexed := by
  unfold Graph.reportNext
  split
  · exact indexed
  · split
    · exact indexed
    · exact indexed.alter ⟨rfl, rfl, rfl, rfl⟩

/-- One state gets a name, whose first state moves alike. -/
theorem Indexed.give {n : EntryName} {first : StateId} (indexed : g.Indexed) (size : h.size = g.size)
    (other : ∀ s : Nat, s ≠ id → h.state s = g.state s) (moves : (h.state id).moves = (g.state id).moves)
    (dispatch : (h.state id).dispatch = (g.state id).dispatch) (name : (h.state id).name = some n)
    (named : ∀ (k : EntryName) (f : StateId), g.named[k]? = some f → h.named[k]? = some f)
    (inside : ∀ (k : EntryName) (f : StateId), h.named[k]? = some f → f < g.size) (listed : h.named[n]? = some first)
    (alike : (g.state first).moves = (g.state id).moves) (own : (h.state id).isAlias = false → first = id) : h.Indexed := by
  have sameMoves : ∀ s : Nat, (h.state s).moves = (g.state s).moves := fun s => by
    by_cases here : s = id
    · rw [here, moves]
    · rw [other s here]
  refine ⟨fun s k known => ?_, fun k f place => size ▸ inside k f place, fun s => ?_, fun s => ?_⟩
  · by_cases here : s = id
    · subst here
      obtain rfl := Option.some.inj (name.symm.trans known)
      exact ⟨first, listed, by rw [sameMoves, sameMoves, alike], own⟩
    · rw [other s here] at known ⊢
      obtain ⟨f, place, same, own⟩ := indexed.first s k known
      exact ⟨f, named k f place, by rw [sameMoves, same], own⟩
  · by_cases here : s = id
    · rw [here, dispatch, indexed.clean]
    · rw [other s here, indexed.clean]
  · rw [sameMoves]
    exact indexed.inPlane s

theorem Indexed.addName (indexed : g.Indexed) (there : id < g.size) : (g.addName id).Indexed := by
  have here : (g.addName id).state id = { g.state id with name := some g.nameCount } := state_alter_same there
  have named : ∀ k : EntryName, (g.addName id).named[k]? = if k = g.nameCount then some id else g.named[k]? :=
    fun _ => Array.getElem?_push
  refine indexed.give size_alter (fun s different => state_alter_other different) (by rw [here]) (by rw [here]) (by rw [here])
    (fun k f place => ?_) (fun k f place => ?_) (by rw [named, if_pos rfl]) rfl fun _ => rfl
  · have lower : k < g.nameCount := (Array.getElem?_eq_some_iff.mp place).1
    rw [named, if_neg (Nat.ne_of_lt lower), place]
  · rw [named] at place
    split at place
    · exact Option.some.inj place ▸ there
    · exact indexed.inside k f place

/-- A name is shared. -/
theorem Indexed.alias (indexed : g.Indexed) {n : EntryName} (there : id < g.size) (found : g.nameOfEqual? id = some n) :
    (g.alter id fun s => { s with name := some n, isAlias := true }).Indexed := by
  have here : (g.alter id fun s => { s with name := some n, isAlias := true }).state id =
      { g.state id with name := some n, isAlias := true } := state_alter_same there
  obtain ⟨t, known, _, moves, _⟩ := nameOfEqual?_alike found
  obtain ⟨f, place, same, _⟩ := indexed.first t n known
  refine indexed.give size_alter (fun s different => state_alter_other different) (by rw [here]) (by rw [here]) (by rw [here])
    (fun _ _ place => place) indexed.inside place (same.trans moves.symm) fun isAlias => ?_
  rw [here] at isAlias
  cases isAlias

theorem Indexed.settle (indexed : g.Indexed) {visit : Graph → StateId → Graph}
    (visits : ∀ g id, Indexed g → (visit g id).Indexed) (id : StateId) : (settle visit g id).Indexed := by
  have reported := indexed.reportNext id
  unfold Graph.settle
  dsimp only
  split
  · exact reported
  · rename_i goesOn
    have there : id < (g.reportNext id).size := lt_size_of_hasMoves (by
      rw [Bool.or_eq_true, not_or] at goesOn
      simpa using goesOn.2)
    split
    · rename_i n found
      exact reported.alias there found
    · have added := reported.addName there
      split
      · split
        · exact visits _ _ added
        · exact added
      · exact added

theorem Indexed.nameChain (indexed : g.Indexed) {visit : Graph → StateId → Graph}
    (visits : ∀ g id, Indexed g → (visit g id).Indexed) (id : StateId) : (nameChain visit g id).Indexed :=
  List.foldlRecOn _ _ indexed fun _ before id _ => before.settle visits id

theorem Indexed.collectName {found : Graph × List EntryName} (indexed : found.1.Indexed) {visit : Graph → StateId → Graph}
    (visits : ∀ g id, Indexed g → (visit g id).Indexed) (target : StateId) : (collectName visit found target).1.Indexed := by
  have named := indexed.nameChain visits target
  unfold Graph.collectName
  split
  · dsimp only
    split
    · exact named
    · exact named
  · exact indexed

theorem Indexed.collectNames (depth : Nat) (indexed : g.Indexed) (id : StateId) : (collectNames depth g id).1.Indexed := by
  induction depth generalizing g id with
  | zero => exact indexed
  | succ depth ih =>
    cases known : (g.state id).namesBehind with
    | some names =>
      unfold Graph.collectNames
      rw [known]
      exact indexed
    | none =>
      rw [collectNames_succ depth known]
      have asked : (g.alter id fun s => { s with namesBehind := some [] }).Indexed := indexed.alter ⟨rfl, rfl, rfl, rfl⟩
      have collected := List.foldlRecOn (g.state id).epsilon (Graph.collectName fun g id => (Graph.collectNames depth g id).1)
        (motive := fun found => found.1.Indexed) (b := (g.alter id fun s => { s with namesBehind := some [] }, []))
        asked fun _ before target _ => before.collectName (fun _ id indexed => ih indexed id) target
      exact collected.alter ⟨rfl, rfl, rfl, rfl⟩

theorem Indexed.namesBehind (indexed : g.Indexed) (id : StateId) : (g.namesBehind id).1.Indexed :=
  indexed.collectNames _ id

theorem Indexed.nameFrom (indexed : g.Indexed) (id : StateId) : (g.nameFrom id).Indexed :=
  indexed.nameChain (fun _ id indexed => indexed.namesBehind id) id

theorem Indexed.nameOfGroup (indexed : g.Indexed) (names : List EntryName) : (g.nameOfGroup names).1.Indexed := by
  unfold Graph.nameOfGroup
  split
  · exact indexed
  · exact indexed
  · split
    · exact indexed
    · exact indexed.congr rfl rfl fun _ => ⟨rfl, rfl, rfl, rfl⟩

theorem Indexed.nameAll (indexed : g.Indexed) : g.nameAll.1.Indexed := by
  unfold Graph.nameAll
  split
  · exact indexed
  · rename_i initial _
    have opened : ((g.state initial).epsilon.foldl Graph.nameFrom g).Indexed :=
      List.foldlRecOn _ _ indexed fun _ before id _ => before.nameFrom id
    dsimp only
    split
    · exact opened
    · exact ((opened.nameFrom initial).namesBehind initial).nameOfGroup _

/-! ### Everything -/

/-- What building, closing and naming can make, in any order. -/
inductive Prepared : Graph → Prop where
  | empty : Prepared {}
  | initial {g : Graph} (before : Prepared g) : Prepared g.withInitial.1
  /-- Builds that end at a fault count as well. -/
  | build {g : Graph} (before : Prepared g) (settings : BuildSettings) (r : Regex) : Prepared (g.build settings r).graph
  | link {g : Graph} (before : Prepared g) (source target : StateId) : Prepared (g.linkEpsilon source target)
  | accept {g : Graph} (before : Prepared g) (id : StateId) (kind : Kind) : Prepared (g.acceptAt id kind)
  | closeAll {g : Graph} (before : Prepared g) : Prepared g.closeAll
  | completeAll {g : Graph} (before : Prepared g) (mode : Closing) : Prepared (g.completeAll mode)
  | nameAll {g : Graph} (before : Prepared g) : Prepared g.nameAll.1
  | nameOfGroup {g : Graph} (before : Prepared g) (names : List EntryName) : Prepared (g.nameOfGroup names).1

theorem Prepared.addRule {g : Graph} (prepared : Prepared g) (settings : BuildSettings) (initial : StateId) (kind : Kind)
    (r : Regex) : Prepared (g.addRule settings initial kind r).graph := by
  unfold Graph.addRule
  dsimp only
  split
  · exact ((prepared.build settings r).accept _ kind).link initial _
  · exact prepared.build settings r

theorem Prepared.indexed (prepared : Prepared g) : g.Indexed := by
  induction prepared with
  | empty => exact indexed_empty
  | initial _ ih => exact ih.withInitial
  | build _ settings r ih => exact ih.build settings r
  | link _ _ _ ih => exact ih.linkEpsilon
  | accept _ _ kind ih => exact ih.acceptAt kind
  | closeAll _ ih => exact ih.closeAll
  | completeAll _ mode ih => exact ih.completeAll mode
  | nameAll _ ih => exact ih.nameAll
  | nameOfGroup _ names ih => exact ih.nameOfGroup names

end TokenTables.Automaton.Graph
