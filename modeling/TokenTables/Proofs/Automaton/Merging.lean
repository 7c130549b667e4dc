import TokenTables.Proofs.Automaton.Extension

/-!
Merging. A list of epsilon moves in which states have been merged reads what it read before: the state that
replaces others stands for all of them.
-/

namespace TokenTables.Automaton.Graph

variable {base g after : Graph} {sem semAfter : Standing}

/-! ### States of equal moves -/

theorem state_linkAll {targets : List Nat} {hub s : Nat} : (targets.foldl (fun g t => g.linkEpsilon hub t) g).state s =
    if s = hub ∧ hub < g.size then
      { g.state s with epsilon := targets.foldl (fun acc t => insertNat t acc) (g.state s).epsilon }
    else g.state s := by
  induction targets generalizing g with
  | nil => simp
  | cons t rest ih =>
    rw [List.foldl_cons, ih, size_linkEpsilon]
    by_cases here : s = hub ∧ hub < g.size
    · rw [if_pos here, if_pos here]
      obtain ⟨rfl, inside⟩ := here
      rw [state_linkEpsilon_same inside, List.foldl_cons]
    · rw [if_neg here, if_neg here, linkEpsilon, state_alter, if_neg here]

theorem size_linkAll {targets : List Nat} {hub : Nat} :
    (targets.foldl (fun g t => g.linkEpsilon hub t) g).size = g.size := by
  induction targets generalizing g with
  | nil => rfl
  | cons t rest ih => rw [List.foldl_cons, ih, size_linkEpsilon]

theorem frame_linkAll {targets : List Nat} {hub : Nat} :
    ({ targets.foldl (fun g t => g.linkEpsilon hub t) g with states := #[] } : Graph) =
      { g with states := #[] } := by
  induction targets generalizing g with
  | nil => rfl
  | cons t rest ih => exact ih

/-- Every member moves. -/
def Movers (g : Graph) (members : List Nat) : Prop := ∀ m ∈ members, (g.state m).next.isSome = true

/-- What a merged state and the state after it stand for. -/
def Standing.merged (sem : Standing) (g : Graph) (members : List Nat) : Standing := fun s =>
  if s = g.size then {t | ∃ m ∈ members, t ∈ sem m}
  else if s = g.size + 1 then {t | ∃ m ∈ members, ∃ n, (g.state m).next = some n ∧ t ∈ sem n}
  else sem s

theorem Standing.merged_old {members : List Nat} {s : Nat} (inside : s < g.size) :
    sem.merged g members s = sem s := by
  unfold Standing.merged
  rw [if_neg (Nat.ne_of_lt inside), if_neg (by omega)]

theorem Standing.mem_merged {members : List Nat} {t : Nat} :
    t ∈ sem.merged g members g.size ↔ ∃ m ∈ members, t ∈ sem m := by
  unfold Standing.merged
  rw [if_pos rfl]
  exact Iff.rfl

theorem Standing.mem_hub {members : List Nat} {t : Nat} : t ∈ sem.merged g members (g.size + 1) ↔
    ∃ m ∈ members, ∃ n, (g.state m).next = some n ∧ t ∈ sem n := by
  unfold Standing.merged
  rw [if_neg (by omega), if_pos rfl]
  exact Iff.rfl

theorem Represents.mover_plain (rep : Represents base sem g) {m : Nat} (moves : (g.state m).next.isSome = true) :
    (g.state m).kind = none ∧ (g.state m).isFinal = false := by
  obtain ⟨n, goes⟩ := Option.isSome_iff_exists.mp moves
  exact ⟨(rep.alone m n goes).1, (rep.next m n goes).2.2⟩

/-- The two states that merging adds. -/
structure MergedStates (g after : Graph) (first : Nat) (members : List Nat) : Prop where
  size : after.size = g.size + 2
  frame : { after with states := #[] } = { g with states := #[] }
  old : ∀ s : Nat, s < g.size → after.state s = g.state s
  merged : after.state g.size = { moves := (g.state first).moves, next := some (g.size + 1) }
  hub : ∃ targets : List Nat, after.state (g.size + 1) = { epsilon := targets } ∧
    ∀ n, n ∈ targets ↔ ∃ m ∈ members, (g.state m).next = some n

theorem addMerged_states (rep : Represents base sem g) {first : Nat} {others : List Nat}
    (movers : Movers g (first :: others)) :
    MergedStates g (g.addMerged (first :: others)).1 first (first :: others) := by
  obtain ⟨noKind, notFinal⟩ := rep.mover_plain (movers first List.mem_cons_self)
  have plain : ∀ (rest : List Nat), (∀ m ∈ rest, m ∈ first :: others) →
      rest.foldl (fun s id => { s with
        kind := Kind.better s.kind (g.state id).kind
        isFinal := s.isFinal || (g.state id).isFinal }) { (g.state first).bare with next := some (g.size + 1) } =
      { moves := (g.state first).moves, next := some (g.size + 1) } := by
    intro rest sub
    have start : ({ (g.state first).bare with next := some (g.size + 1) } : State) =
        { moves := (g.state first).moves, next := some (g.size + 1) } := by
      unfold State.bare
      rw [noKind, notFinal, (rep.unnamed first).reported]
    rw [start]
    induction rest with
    | nil => rfl
    | cons m rest ih =>
      obtain ⟨noKindM, notFinalM⟩ := rep.mover_plain (movers m (sub m List.mem_cons_self))
      rw [List.foldl_cons, noKindM, notFinalM]
      exact ih fun q member => sub q (List.mem_cons_of_mem _ member)
  have merged := plain others fun m member => List.mem_cons_of_mem _ member
  unfold addMerged
  dsimp only
  rw [merged]
  refine ⟨by rw [size_linkAll]; simp, by rw [frame_linkAll]; rfl, fun s inside => ?_, ?_, ?_⟩
  · rw [state_linkAll, if_neg (by omega), state_addState, state_addState, if_neg (by simp; omega),
      if_neg (by omega)]
  · rw [state_linkAll, if_neg (by omega), state_addState, state_addState, if_neg (by simp), if_pos rfl]
  · refine ⟨_, by rw [state_linkAll, if_pos ⟨rfl, by simp⟩, state_addState, if_pos (by simp)], fun n => ?_⟩
    rw [mem_foldl_insertNat]
    simp

/-- States of equal moves that are merged keep their meaning. -/
theorem MergedStates.represents (rep : Represents base sem g) {first : Nat} {members : List Nat}
    (states : MergedStates g after first members) (movers : Movers g members) (inFirst : first ∈ members)
    (alike : ∀ m ∈ members, (g.state m).moves = (g.state first).moves) :
    Extends g sem after (sem.merged g members) ∧ Represents base (sem.merged g members) after := by
  have ext : Extends g sem after (sem.merged g members) :=
    ⟨by rw [states.size]; omega, states.old, fun s inside => Standing.merged_old inside⟩
  obtain ⟨targets, hub, links⟩ := states.hub
  have memberInside : ∀ m ∈ members, m < g.size := fun m member => by
    obtain ⟨n, goes⟩ := Option.isSome_iff_exists.mp (movers m member)
    rcases Nat.lt_or_ge m g.size with inside | beyond
    · exact inside
    · rw [state_of_size_le beyond] at goes
      cases goes
  have linkInside : ∀ n ∈ targets, n < g.size := fun n member => by
    obtain ⟨m, _, goes⟩ := (links n).mp member
    exact rep.next_inside goes
  -- The merged state reads what its members read.
  have mover : ∀ code t, MovesTo after (sem.merged g members) g.size code t ↔
      GetsAny base (sem.merged g members) g.size code t := by
    intro code t
    constructor
    · rintro ⟨accepts, n, next, stands⟩
      rw [states.merged] at accepts next
      obtain rfl := Option.some.inj next
      obtain ⟨m, member, n, goes, inN⟩ := Standing.mem_hub.mp stands
      rw [← alike m member] at accepts
      obtain ⟨u, inM, gets⟩ := (rep.mover m n goes code t).mp ⟨accepts, n, goes, inN⟩
      exact ⟨u, Standing.mem_merged.mpr ⟨m, member, inM⟩, gets⟩
    · rintro ⟨u, stands, gets⟩
      obtain ⟨m, member, inM⟩ := Standing.mem_merged.mp stands
      obtain ⟨n, goes⟩ := Option.isSome_iff_exists.mp (movers m member)
      obtain ⟨accepts, n', goes', inN⟩ := (rep.mover m n goes code t).mpr ⟨u, inM, gets⟩
      unfold MovesTo
      rw [states.merged, ← alike m member]
      exact ⟨accepts, g.size + 1, rfl, Standing.mem_hub.mpr ⟨m, member, n', goes', inN⟩⟩
  refine ⟨ext, rep.extend ext states.frame fun s low high => ?_⟩
  rw [states.size] at high
  have place : s = g.size ∨ s = g.size + 1 := by omega
  rcases place with rfl | rfl
  · have nonempty : (sem.merged g members (g.size + 1)).Nonempty := by
      obtain ⟨n, goes⟩ := Option.isSome_iff_exists.mp (movers first inFirst)
      obtain ⟨t, inN⟩ := (rep.next first n goes).2.1
      exact ⟨t, Standing.mem_hub.mpr ⟨first, inFirst, n, goes, inN⟩⟩
    have noNext : (after.state (g.size + 1)).next = none := by rw [hub]
    constructor
    case chain => exact fun code t gets => .mover ((mover code t).mpr gets)
    case mover => exact fun n _ => mover
    all_goals rw [states.merged]
    · exact fun q member => nomatch member
    · exact fun q member => nomatch member
    · exact fun k same => nomatch same
    · exact fun n _ => ⟨rfl, .inl rfl⟩
    · exact ⟨rfl, rfl, rfl, rfl, rfl⟩
    · exact fun halts => nomatch halts
    · exact rep.valid first
    · intro n goes
      obtain rfl := Option.some.inj goes
      exact ⟨by rw [states.size]; omega, nonempty, rfl⟩
    · intro n m goes more
      obtain rfl := Option.some.inj goes
      rw [noNext] at more
      cases more
  · have toLink : ∀ n ∈ targets, ∀ t ∈ sem.merged g members n, t ∈ sem.merged g members (g.size + 1) := by
      intro n member t inN
      rw [Standing.merged_old (linkInside n member)] at inN
      obtain ⟨m, inMembers, goes⟩ := (links n).mp member
      exact Standing.mem_hub.mpr ⟨m, inMembers, n, goes, inN⟩
    constructor
    case chain =>
      rintro code t ⟨u, stands, gets⟩
      obtain ⟨m, inMembers, n, goes, inN⟩ := Standing.mem_hub.mp stands
      have inside := rep.next_inside goes
      refine .step ?_ (ext.chain rep inside (rep.chain n code t inside ⟨u, inN, gets⟩))
      rw [hub]
      exact (links n).mpr ⟨m, inMembers, goes⟩
    case mover =>
      intro n goes
      rw [hub] at goes
      cases goes
    all_goals rw [hub]
    · intro q member
      rw [states.size]
      have inside := linkInside q member
      omega
    · intro q member t inQ
      exact ⟨t, toLink q member t inQ, .refl⟩
    · exact fun k same => nomatch same
    · exact fun n goes => nomatch goes
    · exact ⟨rfl, rfl, rfl, rfl, rfl⟩
    · exact fun _ => rfl
    · exact Moves.valid_empty
    · exact fun n goes => nomatch goes
    · exact fun n m goes => nomatch goes

theorem MergedStates.newHubs (rep : Represents base sem g) {first : Nat} {members : List Nat}
    (states : MergedStates g after first members) : NewHubs base g after (sem.merged g members) := by
  obtain ⟨targets, hub, links⟩ := states.hub
  have source : ∀ s h : Nat, (after.state s).next = some h →
      s < g.size ∧ (g.state s).next = some h ∨ h = g.size + 1 := by
    intro s h goes
    have inside := lt_size_of_next goes
    rw [states.size] at inside
    rcases Nat.lt_or_ge s g.size with old | new
    · rw [states.old s old] at goes
      exact .inl ⟨old, goes⟩
    · have place : s = g.size ∨ s = g.size + 1 := by omega
      rcases place with rfl | rfl
      · rw [states.merged] at goes
        exact .inr (Option.some.inj goes).symm
      · rw [hub] at goes
        cases goes
  refine ⟨?_, ?_, ?_⟩
  · rintro h ⟨low, s, goes⟩ inside
    rcases source s h goes with ⟨_, before⟩ | rfl
    · exact ⟨low, s, before⟩
    · omega
  · rintro h ⟨low, s, goes⟩ beyond
    rcases source s h goes with ⟨_, before⟩ | rfl
    · have inside := rep.next_inside before
      omega
    · refine ⟨by rw [hub], by rw [hub], by rw [hub], by rw [hub], fun q member => ?_, fun t => ?_⟩
      · rw [hub] at member
        obtain ⟨m, _, goesM⟩ := (links q).mp member
        have inside := rep.next_inside goesM
        refine ⟨by omega, ?_⟩
        rcases Nat.lt_or_ge q base.size with original | merged
        · exact .inl original
        · exact .inr ⟨merged, m, by rwa [states.old m (lt_size_of_next goesM)]⟩
      · rw [Standing.mem_hub, hub]
        constructor
        · rintro ⟨m, member, n, goesM, inN⟩
          exact ⟨n, (links n).mpr ⟨m, member, goesM⟩, by rwa [Standing.merged_old (rep.next_inside goesM)]⟩
        · rintro ⟨n, inTargets, inN⟩
          obtain ⟨m, member, goesM⟩ := (links n).mp inTargets
          rw [Standing.merged_old (rep.next_inside goesM)] at inN
          exact ⟨m, member, n, goesM, inN⟩
  · intro s beyond notHub
    rcases Nat.lt_or_ge s after.size with inside | past
    · rw [states.size] at inside
      have place : s = g.size ∨ s = g.size + 1 := by omega
      rcases place with rfl | rfl
      · rw [states.merged]
      · have larger := rep.size_le
        exact absurd ⟨by omega, g.size, by rw [states.merged]⟩ notHub
    · rw [state_of_size_le past]

theorem Movers.inside {members : List Nat} (movers : Movers g members) : ∀ m ∈ members, m < g.size := by
  intro m member
  obtain ⟨n, goes⟩ := Option.isSome_iff_exists.mp (movers m member)
  exact lt_size_of_next goes

/-- A merged state is remembered. -/
theorem Represents.remember (rep : Represents base sem g) {members : List Nat} {id : Nat}
    (next : (g.state id).next.isSome = true) (inside : ∀ m ∈ members, m < g.size)
    (stands : ∀ t, t ∈ sem id ↔ ∃ m ∈ members, t ∈ sem m) :
    Represents base sem { g with merged := (members, id) :: g.merged } where
  target := rep.target
  behind := rep.behind
  kind := rep.kind
  alone := rep.alone
  size_le := rep.size_le
  initial := rep.initial
  noNames := rep.noNames
  unnamed := rep.unnamed
  self := rep.self
  kept := rep.kept
  untouched := rep.untouched
  idle := rep.idle
  valid := rep.valid
  next := rep.next
  again := rep.again
  mover := rep.mover
  complete := rep.complete
  chain s code t inside gets := by
    have chain := rep.chain s code t inside gets
    clear inside gets
    induction chain with
    | mover moves => exact .mover moves
    | closed status gets => exact .closed status gets
    | step edge _ ih => exact .step edge ih
  cache known m member := by
    rcases List.mem_cons.mp member with same | old
    · obtain ⟨rfl, rfl⟩ := Prod.mk.inj same
      exact ⟨next, inside, stands⟩
    · exact rep.cache known m old

/-- One state stands for all members from now on. -/
structure Stands (base g : Graph) (sem : Standing) (members : List Nat) (after : Graph) (semAfter : Standing)
    (id : Nat) : Prop where
  ext : Extends g sem after semAfter
  rep : Represents base semAfter after
  next : (after.state id).next.isSome = true
  stands : ∀ t, t ∈ semAfter id ↔ ∃ m ∈ members, t ∈ sem m
  hubs : NewHubs base g after semAfter

/-- The state that stands for members of equal moves, remembered or new. -/
theorem mergedState_stands (rep : Represents base sem g) {members : List Nat} {first : Nat}
    (movers : Movers g members) (inFirst : first ∈ members)
    (alike : ∀ m ∈ members, (g.state m).moves = (g.state first).moves) :
    ∃ semAfter, Stands base g sem members (g.mergedState members).1 semAfter (g.mergedState members).2 := by
  unfold mergedState
  cases known : g.merged.lookup members with
  | some id =>
    obtain ⟨front, back, split, _⟩ := List.lookup_eq_some_iff.mp known
    have member : (members, id) ∈ g.merged := by
      rw [split]
      exact List.mem_append_right _ List.mem_cons_self
    obtain ⟨next, _, stands⟩ := rep.cache members id member
    exact ⟨sem, .refl g sem, rep, next, stands, .refl rep⟩
  | none =>
    cases members with
    | nil => cases inFirst
    | cons head others =>
      have states := addMerged_states rep movers
      have alikeHead : ∀ m ∈ head :: others, (g.state m).moves = (g.state head).moves := fun m member =>
        (alike m member).trans (alike head List.mem_cons_self).symm
      obtain ⟨ext, repAfter⟩ := states.represents rep movers List.mem_cons_self alikeHead
      have next : ((g.addMerged (head :: others)).1.state g.size).next.isSome = true := by
        rw [states.merged]
        rfl
      have stands : ∀ t, t ∈ sem.merged g (head :: others) g.size ↔
          ∃ m ∈ head :: others, t ∈ sem.merged g (head :: others) m := by
        intro t
        rw [Standing.mem_merged]
        constructor
        · rintro ⟨m, member, inM⟩
          exact ⟨m, member, by rwa [Standing.merged_old (movers.inside m member)]⟩
        · rintro ⟨m, member, inM⟩
          rw [Standing.merged_old (movers.inside m member)] at inM
          exact ⟨m, member, inM⟩
      have insideAfter : ∀ m ∈ head :: others, m < (g.addMerged (head :: others)).1.size := fun m member =>
        (movers.inside m member).trans_le ext.size_le
      have hubs := states.newHubs rep
      refine ⟨sem.merged g (head :: others), ⟨ext.size_le, ext.state, ext.standing⟩, ?_, ?_, fun t => ?_,
        ⟨hubs.old, fun h hub beyond => ?_, hubs.bare⟩⟩
      · exact repAfter.remember next insideAfter stands
      · exact next
      · exact Standing.mem_merged
      · obtain ⟨noNext, notFinal, unclosed, kind, links, stood⟩ := hubs.fresh h hub beyond
        exact ⟨noNext, notFinal, unclosed, kind, links, stood⟩

/-! ### Lists in which states have been merged -/

/-- The second list reads what the first one reads, and stands for nothing that is not behind it. -/
structure Merges (base g : Graph) (sem : Standing) (ids : List Nat) (after : Graph) (semAfter : Standing)
    (idsAfter : List Nat) : Prop where
  ext : Extends g sem after semAfter
  rep : Represents base semAfter after
  inside : ∀ m ∈ idsAfter, m < after.size
  reads : ∀ code t, (∃ m ∈ idsAfter, MovesTo after semAfter m code t) ↔ ∃ m ∈ ids, MovesTo g sem m code t
  within : ∀ Q : Nat → Prop, (∀ u v, Q u → Silent base u v → Q v) → (∀ m ∈ ids, ∀ t ∈ sem m, Q t) →
    ∀ m ∈ idsAfter, ∀ t ∈ semAfter m, Q t
  hubs : NewHubs base g after semAfter

theorem Merges.refl (rep : Represents base sem g) {ids : List Nat} (inside : ∀ m ∈ ids, m < g.size) :
    Merges base g sem ids g sem ids :=
  ⟨.refl g sem, rep, inside, fun _ _ => Iff.rfl, fun _ _ all => all, .refl rep⟩

theorem Merges.trans {third : Graph} {semThird : Standing} {ids idsAfter idsThird : List Nat}
    (one : Merges base g sem ids after semAfter idsAfter)
    (two : Merges base after semAfter idsAfter third semThird idsThird) :
    Merges base g sem ids third semThird idsThird where
  ext := one.ext.trans two.ext
  rep := two.rep
  inside := two.inside
  reads code t := (two.reads code t).trans (one.reads code t)
  within Q behind all := two.within Q behind (one.within Q behind all)
  hubs := one.hubs.trans one.ext two.ext two.hubs

/-- Some members of a list give way to one state. -/
theorem Merges.replace (ext : Extends g sem after semAfter) (rep : Represents base sem g)
    (repAfter : Represents base semAfter after) {ids idsAfter group rest : List Nat} {id : Nat}
    (inside : ∀ m ∈ ids, m < g.size) (place : id < after.size)
    (split : ∀ m, m ∈ ids ↔ m ∈ group ∨ m ∈ rest) (joined : ∀ m, m ∈ idsAfter ↔ m = id ∨ m ∈ rest)
    (reads : ∀ code t, MovesTo after semAfter id code t ↔ ∃ m ∈ group, MovesTo g sem m code t)
    (within : ∀ Q : Nat → Prop, (∀ u v, Q u → Silent base u v → Q v) → (∀ m ∈ group, ∀ t ∈ sem m, Q t) →
      ∀ t ∈ semAfter id, Q t)
    (hubs : NewHubs base g after semAfter) : Merges base g sem ids after semAfter idsAfter where
  hubs := hubs
  ext := ext
  rep := repAfter
  inside m member := by
    rcases (joined m).mp member with rfl | old
    · exact place
    · exact (inside m ((split m).mpr (.inr old))).trans_le ext.size_le
  reads code t := by
    constructor
    · rintro ⟨m, member, moves⟩
      rcases (joined m).mp member with rfl | old
      · obtain ⟨q, inGroup, movesQ⟩ := (reads code t).mp moves
        exact ⟨q, (split q).mpr (.inl inGroup), movesQ⟩
      · have inIds := (split m).mpr (.inr old)
        exact ⟨m, inIds, (ext.movesTo rep (inside m inIds)).mp moves⟩
    · rintro ⟨m, member, moves⟩
      rcases (split m).mp member with inGroup | old
      · exact ⟨id, (joined id).mpr (.inl rfl), (reads code t).mpr ⟨m, inGroup, moves⟩⟩
      · exact ⟨m, (joined m).mpr (.inr old), (ext.movesTo rep (inside m member)).mpr moves⟩
  within Q behind all m member t stands := by
    rcases (joined m).mp member with rfl | old
    · exact within Q behind (fun q inGroup => all q ((split q).mpr (.inl inGroup))) t stands
    · have inIds := (split m).mpr (.inr old)
      rw [ext.standing m (inside m inIds)] at stands
      exact all m inIds t stands

theorem mem_partition {α : Type} {p : α → Bool} {xs yes no : List α} (split : xs.partition p = (yes, no)) :
    (∀ x, x ∈ xs ↔ x ∈ yes ∨ x ∈ no) ∧ ∀ x ∈ yes, p x = true := by
  rw [List.partition_eq_filter_filter, Prod.mk.injEq] at split
  obtain ⟨rfl, rfl⟩ := split
  refine ⟨fun x => ?_, fun x member => (List.mem_filter.mp member).2⟩
  cases same : p x <;> simp [List.mem_filter, same]

theorem mergeEqualMoves_merges (rep : Represents base sem g) {kept todo : List Nat}
    (inside : ∀ m ∈ kept ++ todo, m < g.size) :
    ∃ semAfter, Merges base g sem (kept ++ todo) (g.mergeEqualMoves kept todo).1 semAfter
      (g.mergeEqualMoves kept todo).2 := by
  induction g, kept, todo using mergeEqualMoves.induct generalizing sem with
  | case1 g kept =>
    rw [mergeEqualMoves, List.append_nil]
    exact ⟨sem, .refl rep (by simpa using inside)⟩
  | case2 g kept first rest others split ih =>
    rw [mergeEqualMoves]
    have assoc : kept ++ first :: rest = (kept ++ [first]) ++ rest := by simp
    rw [assoc] at inside ⊢
    split
    · exact ih rep inside
    · rename_i split'
      rw [split] at split'
      cases split'
  | case3 g kept first rest same more others split after id made ih =>
    rw [mergeEqualMoves]
    split
    · rename_i split'
      rw [split] at split'
      cases split'
    · rename_i same' more' others' split'
      rw [split] at split'
      obtain ⟨group, rfl⟩ := Prod.mk.inj split'
      obtain ⟨rfl, rfl⟩ := List.cons.inj group
      dsimp only
      generalize sorted : (same :: more).foldl (fun acc id => insertNat id acc) [first] = members at made
      obtain ⟨parted, alikeGroup⟩ := mem_partition split
      have inMembers : ∀ m, m ∈ members ↔ m = first ∨ m ∈ same :: more := by
        intro m
        rw [← sorted, mem_foldl_insertNat, List.mem_singleton]
      have alike : ∀ m ∈ members, (g.state m).moves = (g.state first).moves ∧ (g.state m).hasMoves = true := by
        intro m member
        have headMoves : (g.state first).hasMoves = true := by
          have both := alikeGroup same List.mem_cons_self
          rw [movesAlike, Bool.and_eq_true] at both
          exact both.1
        rcases (inMembers m).mp member with rfl | inGroup
        · exact ⟨rfl, headMoves⟩
        · have both := alikeGroup m inGroup
          rw [movesAlike, Bool.and_eq_true, beq_iff_eq] at both
          refine ⟨both.2.symm, ?_⟩
          unfold State.hasMoves at headMoves ⊢
          rw [← both.2]
          exact headMoves
      have movers : Movers g members := by
        intro m member
        obtain ⟨n, goes⟩ := next_of_hasMoves (rep.idle m) (alike m member).2
        rw [goes]
        rfl
      obtain ⟨semAfter, stands⟩ := mergedState_stands rep movers ((inMembers first).mpr (.inl rfl))
        fun m member => (alike m member).1
      rw [made] at stands ⊢
      obtain ⟨n, goes⟩ := Option.isSome_iff_exists.mp stands.next
      have step : Merges base g sem (kept ++ first :: rest) after semAfter (kept ++ (others ++ [id])) := by
        refine @Merges.replace _ _ _ _ _ stands.ext rep stands.rep _ _ members (kept ++ others) id inside
          (lt_size_of_next goes) (fun m => ?_) (fun m => ?_) (fun code t => ?_) (fun Q _ all t member => ?_) stands.hubs
        · rw [List.mem_append, List.mem_cons, parted, inMembers, List.mem_append]
          grind
        · simp only [List.mem_append, List.mem_singleton]
          grind
        · rw [stands.rep.mover id n goes]
          constructor
          · rintro ⟨u, inId, gets⟩
            obtain ⟨m, member, inM⟩ := (stands.stands u).mp inId
            obtain ⟨k, goesM⟩ := Option.isSome_iff_exists.mp (movers m member)
            exact ⟨m, member, (rep.mover m k goesM code t).mpr ⟨u, inM, gets⟩⟩
          · rintro ⟨m, member, moves⟩
            obtain ⟨k, goesM⟩ := Option.isSome_iff_exists.mp (movers m member)
            obtain ⟨u, inM, gets⟩ := (rep.mover m k goesM code t).mp moves
            exact ⟨u, (stands.stands u).mpr ⟨m, member, inM⟩, gets⟩
        · obtain ⟨m, inM, stood⟩ := (stands.stands t).mp member
          exact all m inM t stood
      obtain ⟨semLast, last⟩ := ih stands.rep step.inside
      exact ⟨semLast, step.trans last⟩

/-! ### States of one next state -/

/-- A state with the moves and kinds of some states of `g`, and their next state. -/
structure Union (g : Graph) (next : Option StateId) (members : List Nat) (s : State) : Prop where
  next : s.next = next
  bare : s.epsilon = []
  unnamed : Unnamed s
  unclosed : s.isClosed = false
  valid : s.moves.Valid
  accepts : ∀ code, s.moves.acceptsCode code = true ↔ ∃ m ∈ members, (g.state m).moves.acceptsCode code = true
  kind : ∀ k, s.kind = some k → ∃ m ∈ members, (g.state m).kind = some k
  final : s.isFinal = true → ∃ m ∈ members, (g.state m).isFinal = true
  still : (∀ m ∈ members, (g.state m).moves = {}) → s.moves = {}

theorem union_empty : ({} : Moves).union {} = {} := by decide

theorem Union.first (rep : Represents base sem g) (first : Nat) :
    Union g (g.state first).next [first] { (g.state first).bare with next := (g.state first).next } where
  next := rfl
  bare := rfl
  unnamed := ⟨(rep.unnamed first).reported, rfl, rfl, rfl, rfl⟩
  unclosed := rfl
  valid := rep.valid first
  accepts code := by simp [State.bare]
  kind k same := ⟨first, List.mem_cons_self, same⟩
  final same := ⟨first, List.mem_cons_self, same⟩
  still all := all first List.mem_cons_self

theorem Union.merge (rep : Represents base sem g) {next : Option StateId} {members : List Nat} {s : State}
    (union : Union g next members s) (m : Nat) : Union g next (members ++ [m]) (s.merge (g.state m)) where
  next := union.next
  bare := union.bare
  unnamed := ⟨by
    show Kind.better s.reported (g.state m).reported = none
    rw [union.unnamed.reported, (rep.unnamed m).reported]
    rfl, union.unnamed.name, union.unnamed.isAlias, union.unnamed.namesBehind, union.unnamed.dispatch⟩
  unclosed := union.unclosed
  valid := Moves.valid_union union.valid
  accepts code := by
    show (s.moves.union (g.state m).moves).acceptsCode code = true ↔ _
    rw [Moves.acceptsCode_union union.valid (rep.valid m), union.accepts]
    simp only [List.mem_append, List.mem_singleton, or_and_right, exists_or, exists_eq_left]
  kind k same := by
    rcases Kind.better_cases same with old | new
    · obtain ⟨q, member, kind⟩ := union.kind k old
      exact ⟨q, List.mem_append_left _ member, kind⟩
    · exact ⟨m, List.mem_append_right _ List.mem_cons_self, new⟩
  final same := by
    rcases Bool.or_eq_true_iff.mp same with old | new
    · obtain ⟨q, member, isFinal⟩ := union.final old
      exact ⟨q, List.mem_append_left _ member, isFinal⟩
    · exact ⟨m, List.mem_append_right _ List.mem_cons_self, new⟩
  still all := by
    show s.moves.union (g.state m).moves = {}
    rw [union.still fun q member => all q (List.mem_append_left _ member),
      all m (List.mem_append_right _ List.mem_cons_self), union_empty]

theorem Union.mergeAll (rep : Represents base sem g) {next : Option StateId} {members : List Nat} {s : State}
    (union : Union g next members s) (more : List Nat) :
    Union g next (members ++ more) (more.foldl (fun s id => s.merge (g.state id)) s) := by
  induction more generalizing members s with
  | nil => rwa [List.append_nil]
  | cons m rest ih =>
    have whole := ih (union.merge rep m)
    rwa [List.append_assoc] at whole

/-- A union stands for its members or, if they do not move, for the matches behind them. -/
def Standing.union (base : Graph) (sem : Standing) (g : Graph) (next : Option StateId) (members : List Nat) :
    Standing := fun s =>
  if s = g.size then
    if next.isSome then {t | ∃ m ∈ members, t ∈ sem m}
    else {f | ∃ m ∈ members, ∃ u ∈ sem m, Silent base u f ∧ (base.state f).kind.isSome}
  else sem s

theorem Standing.union_old {next : Option StateId} {members : List Nat} {s : Nat} (inside : s < g.size) :
    Standing.union base sem g next members s = sem s := by
  unfold Standing.union
  rw [if_neg (Nat.ne_of_lt inside)]

theorem Standing.mem_union_some {n : Nat} {members : List Nat} {t : Nat} :
    t ∈ Standing.union base sem g (some n) members g.size ↔ ∃ m ∈ members, t ∈ sem m := by
  unfold Standing.union
  rw [if_pos rfl]
  exact Iff.rfl

theorem Standing.mem_union_none {members : List Nat} {f : Nat} :
    f ∈ Standing.union base sem g none members g.size ↔
      ∃ m ∈ members, ∃ u ∈ sem m, Silent base u f ∧ (base.state f).kind.isSome := by
  unfold Standing.union
  rw [if_pos rfl]
  exact Iff.rfl

/-- Nothing is read from a state where a match ends. -/
theorem Fresh.not_gets (fresh : Fresh base) {f code t : Nat} (kind : (base.state f).kind.isSome = true) :
    ¬ Gets base f code t := by
  rintro ⟨a, path, _, next⟩
  obtain ⟨k, same⟩ := Option.isSome_iff_exists.mp kind
  have isFinal := fresh.kind f k same
  have bare := fresh.final f isFinal
  rcases Relation.ReflTransGen.cases_head path with rfl | ⟨q, edge, _⟩
  · obtain ⟨_, _, _, noKind, _⟩ := fresh.next f t next
    rw [noKind] at same
    cases same
  · rw [bare] at edge
    cases edge

theorem Union.merges (fresh : Fresh base) (rep : Represents base sem g) {next : Option StateId}
    {ids idsAfter members rest : List Nat} {s : State} (union : Union g next members s) (inside : ∀ m ∈ ids, m < g.size)
    (alike : ∀ m ∈ members, (g.state m).next = next) (nonempty : ∃ m, m ∈ members)
    (split : ∀ m, m ∈ ids ↔ m ∈ members ∨ m ∈ rest) (joined : ∀ m, m ∈ idsAfter ↔ m = g.size ∨ m ∈ rest) :
    Merges base g sem ids (g.addState s) (Standing.union base sem g next members) idsAfter := by
  have size : (g.addState s).size = g.size + 1 := size_addState
  have here : (g.addState s).state g.size = s := by simp
  have ext : Extends g sem (g.addState s) (Standing.union base sem g next members) :=
    ⟨by omega, fun q low => by rw [state_addState, if_neg (by omega)], fun q low => Standing.union_old low⟩
  have nextInside : ∀ n : Nat, next = some n → n < g.size := fun n same => by
    obtain ⟨m, member⟩ := nonempty
    exact rep.next_inside ((alike m member).trans same)
  have reads : ∀ code t, MovesTo (g.addState s) (Standing.union base sem g next members) g.size code t ↔
      ∃ m ∈ members, MovesTo g sem m code t := by
    intro code t
    unfold MovesTo
    rw [here, union.next, union.accepts]
    constructor
    · rintro ⟨⟨m, member, accepts⟩, n, same, stands⟩
      rw [Standing.union_old (nextInside n same)] at stands
      exact ⟨m, member, accepts, n, (alike m member).trans same, stands⟩
    · rintro ⟨m, member, accepts, n, goes, stands⟩
      have same := (alike m member).symm.trans goes
      rw [← @Standing.union_old base g sem next members n (nextInside n same)] at stands
      exact ⟨⟨m, member, accepts⟩, n, same, stands⟩
  have mover : ∀ n, next = some n → ∀ code t,
      MovesTo (g.addState s) (Standing.union base sem g next members) g.size code t ↔
        GetsAny base (Standing.union base sem g next members) g.size code t := by
    intro n same code t
    rw [reads]
    subst same
    constructor
    · rintro ⟨m, member, moves⟩
      obtain ⟨u, inM, gets⟩ := (rep.mover m n (alike m member) code t).mp moves
      exact ⟨u, Standing.mem_union_some.mpr ⟨m, member, inM⟩, gets⟩
    · rintro ⟨u, stands, gets⟩
      obtain ⟨m, member, inM⟩ := Standing.mem_union_some.mp stands
      exact ⟨m, member, (rep.mover m n (alike m member) code t).mpr ⟨u, inM, gets⟩⟩
  have fits : Fits base (Standing.union base sem g next members) (g.addState s) g.size := by
    constructor
    case chain =>
      intro code t gets
      cases next with
      | some n => exact .mover ((mover n rfl code t).mpr gets)
      | none =>
        obtain ⟨u, stands, getsU⟩ := gets
        obtain ⟨_, _, _, _, _, kind⟩ := Standing.mem_union_none.mp stands
        exact absurd getsU (fresh.not_gets kind)
    case mover =>
      intro n goes
      rw [here, union.next] at goes
      exact mover n goes
    all_goals rw [here]
    · rw [union.bare]
      exact fun q member => nomatch member
    · rw [union.bare]
      exact fun q member => nomatch member
    · intro k same
      obtain ⟨m, member, kind⟩ := union.kind k same
      cases next with
      | some n =>
        rw [(rep.alone m n (alike m member)).1] at kind
        cases kind
      | none =>
        obtain ⟨u, inM, f, path, kindF⟩ := rep.kind m k kind
        exact ⟨f, Standing.mem_union_none.mpr ⟨m, member, u, inM, path, by rw [kindF]; rfl⟩, f, .refl, kindF⟩
    · intro n goes
      rw [union.bare]
      rw [union.next] at goes
      refine ⟨?_, .inl rfl⟩
      cases kind : s.kind with
      | none => rfl
      | some k =>
        obtain ⟨m, member, same⟩ := union.kind k kind
        rw [(rep.alone m n ((alike m member).trans goes)).1] at same
        cases same
    · exact union.unnamed
    · exact union.unclosed
    · intro halts
      rw [union.next] at halts
      exact union.still fun m member => rep.idle m ((alike m member).trans halts)
    · exact union.valid
    · intro n goes
      rw [union.next] at goes
      have low := nextInside n goes
      obtain ⟨m, member⟩ := nonempty
      refine ⟨by rw [size]; omega, ?_, ?_⟩
      · rw [Standing.union_old low]
        exact (rep.next m n ((alike m member).trans goes)).2.1
      · rw [Bool.eq_false_iff]
        intro isFinal
        obtain ⟨q, inMembers, finalQ⟩ := union.final isFinal
        rw [(rep.next q n ((alike q inMembers).trans goes)).2.2] at finalQ
        cases finalQ
    · intro n m goes more
      rw [union.next] at goes
      obtain ⟨q, member⟩ := nonempty
      rw [ext.state n (nextInside n goes)] at more
      exact rep.again q n m ((alike q member).trans goes) more
  have repAfter : Represents base (Standing.union base sem g next members) (g.addState s) := by
    refine rep.extend ext rfl fun q low high => ?_
    obtain rfl : q = g.size := by omega
    exact fits
  refine .replace ext rep repAfter inside (by omega) split joined reads (fun Q behind all t stands => ?_) ?_
  · cases next with
    | some n =>
      obtain ⟨m, member, inM⟩ := Standing.mem_union_some.mp stands
      exact all m member t inM
    | none =>
      obtain ⟨m, member, u, inM, path, _⟩ := Standing.mem_union_none.mp stands
      exact behind u t (all m member u inM) path
  · -- The next state of a union is that of its members.
    have source : ∀ q h : Nat, ((g.addState s).state q).next = some h → ∃ m : Nat, (g.state m).next = some h := by
      intro q h goes
      rw [state_addState] at goes
      split at goes
      · rw [union.next] at goes
        obtain ⟨m, member⟩ := nonempty
        exact ⟨m, (alike m member).trans goes⟩
      · exact ⟨q, goes⟩
    refine ⟨?_, ?_, fun q beyond _ => ?_⟩
    · rintro h ⟨low, q, goes⟩ _
      exact ⟨low, source q h goes⟩
    · rintro h ⟨low, q, goes⟩ beyond
      obtain ⟨m, before⟩ := source q h goes
      exact absurd (rep.next_inside before) (by omega)
    · rw [state_addState]
      split
      · exact union.bare
      · rw [state_of_size_le beyond]

theorem mergeCommonNext_merges (fresh : Fresh base) (rep : Represents base sem g) {kept todo : List Nat}
    (inside : ∀ m ∈ kept ++ todo, m < g.size) :
    ∃ semAfter, Merges base g sem (kept ++ todo) (g.mergeCommonNext kept todo).1 semAfter
      (g.mergeCommonNext kept todo).2 := by
  generalize bound : todo.length = n
  induction n using Nat.strongRecOn generalizing g sem kept todo with
  | ind n ih =>
    cases todo with
    | nil =>
      rw [mergeCommonNext, List.append_nil]
      exact ⟨sem, .refl rep (by simpa using inside)⟩
    | cons first rest =>
      rw [mergeCommonNext]
      split
      · have assoc : kept ++ first :: rest = (kept ++ [first]) ++ rest := by simp
        rw [assoc] at inside ⊢
        exact ih rest.length (by rw [← bound]; exact Nat.lt_succ_self _) rep inside rfl
      · rename_i same more others split
        obtain ⟨parted, alikeGroup⟩ := mem_partition split
        have shorter := length_lt_of_partition split
        have union := (Union.first rep first).mergeAll rep (same :: more)
        have alike : ∀ m ∈ [first] ++ same :: more, (g.state m).next = (g.state first).next := by
          intro m member
          rcases List.mem_cons.mp member with rfl | inGroup
          · rfl
          · have both := alikeGroup m inGroup
            rw [goesAlike, beq_iff_eq] at both
            exact both.symm
        have inIds : ∀ m, m ∈ kept ++ first :: rest ↔ m ∈ [first] ++ same :: more ∨ m ∈ kept ++ others := by
          intro m
          simp only [List.mem_append, List.mem_cons, parted, List.not_mem_nil, or_false]
          grind
        have inAfter : ∀ m, m ∈ kept ++ (others ++ [g.size]) ↔ m = g.size ∨ m ∈ kept ++ others := by
          intro m
          simp only [List.mem_append, List.mem_singleton]
          grind
        have step := union.merges fresh rep inside alike ⟨first, List.mem_cons_self⟩ inIds inAfter
        obtain ⟨semLast, last⟩ := ih (others ++ [g.size]).length
          (by rw [← bound, List.length_append]; exact Nat.succ_lt_succ shorter) step.rep step.inside rfl
        exact ⟨semLast, step.trans last⟩

/-- One pass of merging. -/
def mergeOnce (rule : MergeRule) (g : Graph) (ids : List StateId) : Graph × List StateId :=
  let equal := if rule.equalMoves then g.mergeEqualMoves [] ids else (g, ids)
  if rule.commonNext then equal.1.mergeCommonNext [] equal.2 else equal

theorem mergeAll_eq (rule : MergeRule) (g : Graph) (ids : List StateId) :
    mergeAll rule g ids =
      if (mergeOnce rule g ids).2.length < ids.length then
        mergeAll rule (mergeOnce rule g ids).1 (mergeOnce rule g ids).2
      else mergeOnce rule g ids := by
  rw [mergeAll]
  rfl

theorem mergeOnce_merges (fresh : Fresh base) (rule : MergeRule) (rep : Represents base sem g) {ids : List Nat}
    (inside : ∀ m ∈ ids, m < g.size) :
    ∃ semAfter, Merges base g sem ids (mergeOnce rule g ids).1 semAfter (mergeOnce rule g ids).2 := by
  have first : ∃ semFirst, Merges base g sem ids
      (if rule.equalMoves then g.mergeEqualMoves [] ids else (g, ids)).1 semFirst
      (if rule.equalMoves then g.mergeEqualMoves [] ids else (g, ids)).2 := by
    split
    · exact @mergeEqualMoves_merges _ _ _ rep [] ids inside
    · exact ⟨sem, .refl rep inside⟩
  obtain ⟨semFirst, one⟩ := first
  unfold mergeOnce
  dsimp only
  split
  · obtain ⟨semSecond, two⟩ := @mergeCommonNext_merges _ _ _ fresh one.rep [] _ one.inside
    exact ⟨semSecond, one.trans two⟩
  · exact ⟨semFirst, one⟩

/-- Merging keeps what a list reads. -/
theorem mergeAll_merges (fresh : Fresh base) (rule : MergeRule) (rep : Represents base sem g) {ids : List Nat}
    (inside : ∀ m ∈ ids, m < g.size) :
    ∃ semAfter, Merges base g sem ids (mergeAll rule g ids).1 semAfter (mergeAll rule g ids).2 := by
  generalize bound : ids.length = n
  induction n using Nat.strongRecOn generalizing g ids sem with
  | ind n ih =>
    obtain ⟨semFirst, one⟩ := mergeOnce_merges fresh rule rep inside
    rw [mergeAll_eq]
    split
    · rename_i shorter
      obtain ⟨semLast, more⟩ := ih _ (bound ▸ shorter) one.rep one.inside rfl
      exact ⟨semLast, one.trans more⟩
    · exact ⟨semFirst, one⟩

end TokenTables.Automaton.Graph
