import TokenTables.Proofs.Automaton.ClosingModes
import TokenTables.Proofs.Automaton.PlainClosing
import TokenTables.Proofs.Automaton.Spares

/-!
Closing a graph of rules that has spare ones. The other rules are closed as they are without them, so the kinds found for
their states are the same.
-/

namespace TokenTables.Automaton.Graph

open Kind (IsBest NoLater)

variable {base baseOther g h : Graph} {sem : Standing} {place : Nat → Nat} {region : Set Nat} {count id : Nat}

/-! ### Completing without merging -/

theorem Shared.hasMoves {s : Nat} (lock : Lockstep place region count g h) (shared : Shared place region count g h s) :
    (h.state (place s)).hasMoves = (g.state s).hasMoves := by
  have still : ∀ {g : Graph} {t : Nat}, Quiet g t → (g.state t).hasMoves = false := fun quiet =>
    (Bool.or_eq_false_iff.mp quiet.still).2
  rcases shared.2 with inRegion | ⟨quiet, quietOther, _⟩
  · rw [lock.same s inRegion, State.relocated_hasMoves]
  · rw [still quiet, still quietOther]

theorem Quiet.prune {t : Nat} (quiet : Quiet g t) : Quiet (g.prune id) t := by
  refine ⟨?_, (prune_matters t).trans quiet.still, fun x edge => (prune_matters x).trans (quiet.list x (prune_sub edge))⟩
  rw [prune_state t]
  exact quiet.closed

theorem Lockstep.prune (lock : Lockstep place region count g h) (member : id ∈ region) (inside : id < count) :
    Lockstep place region count (g.prune id) (h.prune (place id)) := by
  have useful : (h.state (place id)).epsilon.filter (fun t => (h.state t).hasMoves) =
      ((g.state id).epsilon.filter fun t => (g.state t).hasMoves).map place := by
    rw [lock.same id member, State.relocated_epsilon, List.filter_map]
    exact congrArg _ (List.filter_congr fun x edge => (lock.edge id member x edge).hasMoves lock)
  have stillShared : ∀ t, Shared place region count g h t →
      Shared place region count (g.prune id) (h.prune (place id)) t := by
    rintro t ⟨insideT, inRegion | ⟨quiet, quietOther, kind⟩⟩
    · exact ⟨insideT, .inl inRegion⟩
    · exact ⟨insideT, .inr ⟨quiet.prune, quietOther.prune, by rw [prune_kind, prune_kind]; exact kind⟩⟩
  refine ⟨lock.keeps, ?_, fun t below => ?_, fun t inRegion => ?_, fun t inRegion x edge => ?_⟩
  · unfold Graph.prune
    rw [size_alter]
    exact lock.inside
  · unfold Graph.prune
    rw [size_alter]
    exact lock.insideOther t below
  · by_cases here : t = id
    · subst here
      unfold Graph.prune
      rw [state_alter_same (inside.trans_le lock.inside), state_alter_same (lock.insideOther t inside), useful,
        List.length_map, lock.same t member]
      rfl
    · rw [prune_other here, prune_other (lock.keeps.injective.ne here), lock.same t inRegion]
  · exact stillShared x (lock.edge t inRegion x (prune_sub edge))

/-! ### States that keep to themselves -/

/-- No epsilon move leads out of a set of states. -/
def Sealed (g : Graph) (within : Set Nat) : Prop := ∀ s ∈ within, ∀ x ∈ (g.state s).epsilon, x ∈ within

variable {within : Set Nat}

theorem sealed_kept : Kept base sem g fun h => Sealed h within := by
  intro h s _ _ isOpen sealed t member x edge
  by_cases here : t = s
  · subst here
    rw [absorb_state_same isOpen.inside] at edge
    rcases mem_absorbedList.mp edge with found | ⟨_, rfl⟩
    · exact gather_all (fun q inside x edge _ => sealed q inside x edge) (sealed t member) x found
    · exact member
  · rw [absorb_state_other here] at edge
    exact sealed t member x edge

theorem Sealed.prune (sealed : Sealed g within) : Sealed (g.prune id) within :=
  fun s member x edge => sealed s member x (prune_sub edge)

theorem Sealed.complete (sealed : Sealed g within) (sound : Sound base sem g) :
    Sealed (completeState MergeRule.none g id) within := by
  obtain ⟨last, h, closed, sealedAfter, result⟩ := close_closed sealed_kept sound sealed id
  rw [completeState_none, result]
  refine Sealed.prune fun s member x edge => sealedAfter s member x ?_
  rwa [closed.marked_epsilon] at edge

/-- Completing a state of a sealed set leaves all others alone. -/
theorem Sealed.complete_other (sealed : Sealed g within) (sound : Sound base sem g) (member : id ∈ within) {s : Nat}
    (apart : s ∉ within) : (completeState MergeRule.none g id).state s = g.state s := by
  obtain ⟨last, h, closed, sealedAfter, result⟩ := close_closed sealed_kept sound sealed id
  have walked : ∀ t ∈ last.openReach id, t ∈ within := by
    intro t there
    have path := (mem_openReach.mp there).2
    clear there
    induction path with
    | refl => exact member
    | @tail q t _ edge ih => exact sealedAfter q ih t (closed.further.more q t edge.1)
  have unwalked : s ∉ last.openReach id := fun there => apart (walked s there)
  have different : s ≠ id := fun same => apart (same ▸ member)
  rw [completeState_none, prune_other different, result, markClosed_other unwalked, closed.others s unwalked]

/-- A state by itself keeps its kind. -/
theorem complete_alone (alone : Sealed g {id}) (sound : Sound base sem g) :
    ((completeState MergeRule.none g id).state id).kind = (g.state id).kind := by
  have kept : Kept base sem g fun h => Sealed h {id} ∧ (h.state id).kind = (g.state id).kind := by
    rintro h s grows soundH isOpen ⟨sealed, kind⟩
    refine ⟨sealed_kept h s grows soundH isOpen sealed, ?_⟩
    by_cases here : id = s
    · subst here
      rw [absorb_state_same isOpen.inside, ← kind]
      refine NoLater.antisymm gather_kind_noLater fun k result => ⟨k, Nat.le_refl _, ?_⟩
      rcases gather_kind (fun q inside x edge _ => sealed q inside x edge) (sealed id rfl) result with old | ⟨q, same, old⟩
      · exact old
      · obtain rfl : q = id := same
        exact old
    · rw [absorb_state_other here]
      exact kind
  obtain ⟨last, h, closed, ⟨_, kind⟩, result⟩ := close_closed kept sound ⟨alone, rfl⟩ id
  rw [completeState_none, prune_kind, result, closed.marked_kind]
  exact kind

/-! ### Both graphs -/

/-- Two graphs closed so far, the second one with spare states besides. -/
structure InStep (place : Nat → Nat) (base baseOther g h : Graph) : Prop where
  lock : Lockstep place {s | 0 < s} base.size g h
  zero : place 0 = 0
  sealed : Sealed g {s | 0 < s}
  progress : ∃ sem, Progress base sem g
  progressOther : ∃ sem, Progress baseOther sem h
  initial : g.state 0 = base.state 0
  initialOther : h.state 0 = baseOther.state 0
  spare : ∀ t : Nat, (∀ s, place s ≠ t) → Sealed h {t} ∧ (h.state t).kind = (baseOther.state t).kind

theorem InStep.sealedOther (inStep : InStep place base baseOther g h) : Sealed h (place '' {s | 0 < s}) := by
  rintro _ ⟨s, positive, rfl⟩ x edge
  rw [inStep.lock.same s positive, State.relocated_epsilon] at edge
  obtain ⟨t, edgeT, rfl⟩ := List.mem_map.mp edge
  exact ⟨t, inStep.sealed s positive t edgeT, rfl⟩

theorem InStep.complete (inStep : InStep place base baseOther g h) (fresh : Fresh base) (freshOther : Fresh baseOther)
    (positive : 0 < id) (inside : id < base.size) (insideOther : place id < baseOther.size) :
    InStep place base baseOther (completeState MergeRule.none g id) (completeState MergeRule.none h (place id)) := by
  obtain ⟨sem, prog⟩ := inStep.progress
  obtain ⟨semOther, progOther⟩ := inStep.progressOther
  obtain ⟨semAfter, completes⟩ := completeState_completes fresh MergeRule.none prog (inside.trans_le prog.size_le)
    fun hub => absurd hub.1 (by omega)
  obtain ⟨semAfterOther, completesOther⟩ := completeState_completes freshOther MergeRule.none progOther
    (insideOther.trans_le progOther.size_le) fun hub => absurd hub.1 (by omega)
  have sealedOther := inStep.sealedOther
  have member : place id ∈ place '' {s | 0 < s} := ⟨id, positive, rfl⟩
  have zero : (0 : Nat) ∉ place '' {s | 0 < s} := by
    rintro ⟨s, above, same⟩
    have := inStep.lock.keeps.le_apply (x := s)
    have : 0 < s := above
    omega
  refine ⟨?_, inStep.zero, inStep.sealed.complete prog.toSound, ⟨semAfter, completes.progress⟩,
    ⟨semAfterOther, completesOther.progress⟩, ?_, ?_, fun t spare => ⟨?_, ?_⟩⟩
  · rw [completeState_none, completeState_none]
    exact (inStep.lock.close prog.toSound progOther.toSound positive inside).prune positive inside
  · rw [inStep.sealed.complete_other prog.toSound positive (Nat.lt_irrefl 0), inStep.initial]
  · rw [sealedOther.complete_other progOther.toSound member zero, inStep.initialOther]
  · exact (inStep.spare t spare).1.complete progOther.toSound
  · have apart : t ∉ place '' {s | 0 < s} := by
      rintro ⟨s, _, same⟩
      exact spare s same
    rw [sealedOther.complete_other progOther.toSound member apart]
    exact (inStep.spare t spare).2

theorem InStep.completeSpare (inStep : InStep place base baseOther g h) (freshOther : Fresh baseOther) (positive : 0 < id)
    (spare : ∀ s, place s ≠ id) (inside : id < baseOther.size) :
    InStep place base baseOther g (completeState MergeRule.none h id) := by
  obtain ⟨semOther, progOther⟩ := inStep.progressOther
  obtain ⟨semAfter, completes⟩ := completeState_completes freshOther MergeRule.none progOther
    (inside.trans_le progOther.size_le) fun hub => absurd hub.1 (by omega)
  obtain ⟨alone, kind⟩ := inStep.spare id spare
  have others : ∀ t : Nat, t ≠ id → (completeState MergeRule.none h id).state t = h.state t :=
    fun t different => alone.complete_other progOther.toSound rfl different
  have lock := inStep.lock
  refine ⟨⟨lock.keeps, lock.inside, fun t below => ?_, fun t member => ?_, fun t member x edge => ?_⟩, inStep.zero,
    inStep.sealed, inStep.progress, ⟨semAfter, completes.progress⟩, inStep.initial, ?_, fun t isSpare => ⟨?_, ?_⟩⟩
  · exact (lock.insideOther t below).trans_le completes.size_le
  · rw [others _ (spare t)]
    exact lock.same t member
  · exact ⟨(lock.edge t member x edge).1, .inl (inStep.sealed t member x edge)⟩
  · rw [others 0 (by omega)]
    exact inStep.initialOther
  · exact (inStep.spare t isSpare).1.complete progOther.toSound
  · by_cases here : t = id
    · rw [here, complete_alone alone progOther.toSound, kind]
    · rw [others t here]
      exact (inStep.spare t isSpare).2

/-- Completing goes on side by side down to the initial state. -/
theorem InStep.completeAbove (inStep : InStep place base baseOther g h) (fresh : Fresh base) (freshOther : Fresh baseOther)
    {few count : Nat} (fewInside : few < base.size) (countInside : count < baseOther.size)
    (meets : ∀ s, 0 < s → (s ≤ few ↔ place s ≤ count)) : InStep place base baseOther
      ((List.range' 1 few).reverse.foldl (completeState MergeRule.none) g)
      ((List.range' 1 count).reverse.foldl (completeState MergeRule.none) h) := by
  induction count generalizing few g h with
  | zero =>
    obtain rfl : few = 0 := by
      by_contra more
      have := (meets few (by omega)).mp (Nat.le_refl _)
      have := inStep.lock.keeps.le_apply (x := few)
      omega
    exact inStep
  | succ count ih =>
    rw [reverse_range'_succ, List.foldl_cons, Nat.add_comm 1 count]
    by_cases placed : ∃ s, place s = count + 1
    · obtain ⟨s, here⟩ := placed
      have positive : 0 < s := by
        by_contra none
        rw [Nat.eq_zero_of_not_pos none, inStep.zero] at here
        cases here
      obtain rfl : s = few := by
        have le := (meets s positive).mpr here.le
        by_contra different
        have later := inStep.lock.keeps (Nat.lt_of_le_of_ne le different)
        have := (meets few (by omega)).mp (Nat.le_refl _)
        omega
      obtain ⟨few, rfl⟩ := Nat.exists_eq_succ_of_ne_zero (by omega : s ≠ 0)
      rw [Nat.succ_eq_add_one] at *
      rw [reverse_range'_succ, List.foldl_cons, Nat.add_comm 1 few, ← here]
      refine ih (inStep.complete fresh freshOther positive fewInside (here ▸ countInside)) (by omega) (by omega)
        fun s positiveS => ?_
      have order := @StrictMono.lt_iff_lt _ _ _ _ _ inStep.lock.keeps s (few + 1)
      omega
    · have spare : ∀ s, place s ≠ count + 1 := fun s same => placed ⟨s, same⟩
      refine ih (inStep.completeSpare freshOther (Nat.succ_pos _) spare countInside) fewInside (by omega)
        fun s positive => ?_
      have := meets s positive
      have := spare s
      omega

/-! ### The initial state -/

/-- The kind of a state behind which everything is complete already. -/
theorem complete_kind (fresh : Fresh base) (rule : MergeRule) (prog : Progress base sem g) (inside : id < base.size)
    (unclosed : (g.state id).isClosed = false) (ready : ∀ q ∈ (g.state id).epsilon, Done g q) :
    IsBest ((completeState rule g id).state id).kind fun kind =>
      kind = (g.state id).kind ∨ ∃ q ∈ (g.state id).epsilon, kind = (g.state q).kind := by
  have isOpen : Open g id := ⟨inside.trans_le prog.size_le, unclosed⟩
  have start : GainsUseful g g ∧ KindFromLinks g id g :=
    ⟨⟨fun _ _ => rfl, fun _ _ member => .inl member⟩, fun _ member => .inl member, fun _ same => .inl same⟩
  obtain ⟨last, h, closed, ⟨_, _, kinds⟩, result⟩ :=
    close_closed (kindFromLinks_kept prog.toRepresents ready) prog.toSound start id
  have relisted := completeState_relisted fresh rule prog inside
  have low : id < (g.close id).size := by
    rw [result, markClosed_size, closed.grows.size]
    exact isOpen.inside
  rw [relisted.kind low, result, closed.marked_kind]
  refine ⟨fun k same => ?_, ?_⟩
  · rcases kinds k same with old | ⟨q, edge, kind⟩
    · exact .inl old.symm
    · exact .inr ⟨q, edge, kind.symm⟩
  · rintro _ (rfl | ⟨q, edge, rfl⟩)
    · exact closed.grows.better id
    · have walked : id ∈ last.openReach id := mem_openReach.mpr ⟨closed.before.grows.open_iff.mpr isOpen, .refl⟩
      have apart : q ∉ last.openReach id := by
        intro member
        have status := (ready q edge).closed
        rw [(closed.wasOpen member).unclosed] at status
        cases status
      have first := closed.settled.kind id walked q (closed.grows.more id q edge)
      rwa [closed.before.others q apart] at first

variable {few pieces spare : List RulePiece}

theorem Ruled.sealed (ruled : Ruled base pieces) : Sealed base {s | 0 < s} := by
  intro s positive t edge
  have above : 0 < s := positive
  rcases ruled.cases s with ⟨_, rfl⟩ | blank | ⟨p, member, low, high, stop | ⟨inner, _⟩⟩
  · exact absurd above (Nat.lt_irrefl 0)
  · rw [blank] at edge
    cases edge
  · rw [stop] at edge
    cases edge
  · exact Nat.lt_of_le_of_lt (Nat.zero_le _) ((ruled.shape p member).enclosed.epsilon s low high inner t edge).1

theorem Ruled.start_pos (ruled : Ruled base pieces) {q : Nat} (edge : q ∈ (base.state 0).epsilon) : 1 ≤ q := by
  rw [ruled.initial] at edge
  obtain ⟨p, member, rfl⟩ := List.mem_map.mp edge
  exact (ruled.within member).1

/-- All original states but the initial one, completed without merging. -/
def completeRules (g : Graph) : Graph := (List.range' 1 (g.size - 1)).reverse.foldl (completeState MergeRule.none) g

theorem completeFirst_plain (positive : 0 < base.size) :
    base.completeFirst .plain = completeState MergeRule.none base.completeRules 0 := by
  have split : List.range base.size = 0 :: List.range' 1 (base.size - 1) := by
    obtain ⟨n, size⟩ := Nat.exists_eq_succ_of_ne_zero (Nat.ne_of_gt positive)
    rw [size, List.range_eq_range', List.range'_succ]
    rfl
  unfold completeFirst completeRules
  rw [split, List.reverse_cons, List.foldl_append]
  rfl

/-- The kinds of a closed graph, from the one in which only the initial state is left to close. -/
theorem Ruled.completeAll_kinds (ruled : Ruled base pieces) (mode : Closing) (zero : base.completeRules.state 0 = base.state 0) :
    (∀ s : Nat, 0 < s → s < base.size → ((base.completeAll mode).state s).kind = (base.completeRules.state s).kind) ∧
      IsBest ((base.completeAll mode).state 0).kind fun kind =>
        ∃ q ∈ (base.state 0).epsilon, kind = (base.completeRules.state q).kind := by
  have fresh := ruled.fresh
  have positive := ruled.size_pos
  obtain ⟨sem, prog, done⟩ := completeOriginals fresh MergeRule.none 1 (base.size - 1) (by omega) fresh.progress
    fun s low high => absurd low (by omega)
  change Progress base sem base.completeRules at prog
  change ∀ s : Nat, 1 ≤ s → s < base.size → Done base.completeRules s at done
  obtain ⟨_, completes⟩ := completeState_completes fresh MergeRule.none prog (show 0 < base.completeRules.size from
    Nat.lt_of_lt_of_le positive prog.size_le) fun hub => absurd hub.1 (Nat.not_le.mpr positive)
  have last : ∀ s : Nat, s < base.size → ((base.completeAll mode).state s).kind =
      ((completeState MergeRule.none base.completeRules 0).state s).kind := fun s inside => by
    rw [completeAll_kind ruled .plain mode inside, (completeAll_completes fresh .plain).2 s inside,
      completeFirst_plain positive]
  refine ⟨fun s low inside => ?_, ?_⟩
  · rw [last s inside, completes.kept s (by omega) (done s low inside).closed]
  · have unclosed : (base.completeRules.state 0).isClosed = false := by
      rw [zero, ruled.initial]
    have best := complete_kind fresh MergeRule.none prog positive unclosed fun q edge => by
      rw [zero] at edge
      exact done q (ruled.start_pos edge) (fresh.target 0 q edge)
    rw [last 0 positive]
    refine best.congr fun k => ?_
    rw [zero, ruled.initial]
    simp

theorem Embedded.inStep (embedded : Embedded place base baseOther few pieces spare) :
    InStep place base baseOther base baseOther where
  lock := ⟨embedded.keeps, Nat.le_refl _, fun _ => embedded.place_lt.mpr, embedded.state,
    fun s positive t edge => ⟨embedded.ruledFew.fresh.target s t edge, .inl (embedded.ruledFew.sealed s positive t edge)⟩⟩
  zero := embedded.zero
  sealed := embedded.ruledFew.sealed
  progress := ⟨_, embedded.ruledFew.fresh.progress⟩
  progressOther := ⟨_, embedded.ruled.fresh.progress⟩
  initial := rfl
  initialOther := rfl
  spare t isSpare := by
    refine ⟨fun s same x edge => ?_, rfl⟩
    obtain rfl : s = t := same
    have inside := lt_size_of_mem_epsilon edge
    have positive : 0 < s := by
      by_contra none
      exact isSpare 0 (embedded.zero.trans (Nat.eq_zero_of_not_pos none).symm)
    rcases embedded.covered s positive inside with ⟨q, placed⟩ | ⟨p, member, low, high⟩
    · exact absurd placed (isSpare q)
    · rw [embedded.chain p member s low high] at edge
      cases edge

theorem Embedded.completeRules (embedded : Embedded place base baseOther few pieces spare) :
    InStep place base baseOther base.completeRules baseOther.completeRules := by
  have positive := embedded.size_pos
  have positiveOther := embedded.ruled.size_pos
  refine embedded.inStep.completeAbove embedded.ruledFew.fresh embedded.ruled.fresh (by omega) (by omega) fun s _ => ?_
  have := @Copied.place_lt _ _ _ embedded.toCopied s
  omega

/-- The kinds found with spare rules and without them are the same, and the states of a spare rule have their own. -/
theorem Embedded.completeAll_kinds (embedded : Embedded place base baseOther few pieces spare) (mode other : Closing) :
    (∀ s : Nat, 0 < s → s < base.size →
      ((baseOther.completeAll other).state (place s)).kind = ((base.completeAll mode).state s).kind) ∧
    ∀ t : Nat, t < baseOther.size → (∀ s, place s ≠ t) →
      ((baseOther.completeAll other).state t).kind = (baseOther.state t).kind := by
  have inStep := embedded.completeRules
  obtain ⟨kinds, _⟩ := embedded.ruledFew.completeAll_kinds mode inStep.initial
  obtain ⟨kindsOther, _⟩ := embedded.ruled.completeAll_kinds other inStep.initialOther
  refine ⟨fun s positive inside => ?_, fun t inside isSpare => ?_⟩
  · have above := embedded.keeps.le_apply (x := s)
    rw [kindsOther (place s) (by omega) (embedded.place_lt.mpr inside), kinds s positive inside,
      inStep.lock.same s positive, State.relocated_kind]
  · have positive : 0 < t := by
      by_contra none
      exact isSpare 0 (embedded.zero.trans (Nat.eq_zero_of_not_pos none).symm)
    rw [kindsOther t positive inside]
    exact (inStep.spare t isSpare).2

/-- If no spare rule matches the empty text, its kind is the same with the spare rules. -/
theorem Embedded.completeAll_openingKind (embedded : Embedded place base baseOther few pieces spare)
    (nonempty : ∀ p ∈ spare, [] ∉ p.texts) (mode other : Closing) :
    ((baseOther.completeAll other).state 0).kind = ((base.completeAll mode).state 0).kind := by
  have inStep := embedded.completeRules
  have best := (embedded.ruledFew.completeAll_kinds mode inStep.initial).2
  have bestOther := (embedded.ruled.completeAll_kinds other inStep.initialOther).2
  refine bestOther.unique (best.congr fun k => ?_)
  constructor
  · rintro ⟨q, edge, kind⟩
    refine ⟨place q, (embedded.opening q).mpr edge, ?_⟩
    rw [inStep.lock.same q (embedded.ruledFew.start_pos edge), State.relocated_kind]
    exact kind
  · rintro ⟨t, edge, kind⟩
    have positive := embedded.ruled.start_pos edge
    rcases embedded.covered t positive (embedded.ruled.fresh.target 0 t edge) with ⟨s, rfl⟩ | ⟨p, member, low, high⟩
    · have edgeS := (embedded.opening s).mp edge
      refine ⟨s, edgeS, ?_⟩
      rw [inStep.lock.same s (embedded.ruledFew.start_pos edgeS), State.relocated_kind] at kind
      exact kind
    · -- The chain of a spare rule does not begin in its last state.
      rw [(inStep.spare t (embedded.apart p member t low high)).2] at kind
      have isPiece := embedded.sub p member
      have atStop := (embedded.ruled.kind_inner isPiece low high kind.symm).1
      have atStart := embedded.ruled.entered isPiece 0 t edge low high (.inl (embedded.spare_inside member).1)
      refine absurd ?_ (nonempty p member)
      rw [← (embedded.ruled.shape p isPiece).ways_eq]
      show Way baseOther p.stop p.start []
      rw [← atStart, atStop]
      exact .done

/-! ### Findings -/

theorem mem_entered {starts : Set Nat} {text : List Char} {t : Nat} :
    t ∈ base.entered starts text ↔ ∃ s ∈ starts, t ∈ base.entered {s} text := by
  induction text generalizing starts with
  | nil => simp [entered]
  | cons c rest ih =>
    unfold entered
    rw [ih]
    constructor
    · rintro ⟨q, ⟨s, start, gets⟩, member⟩
      exact ⟨s, start, ih.mpr ⟨q, ⟨s, rfl, gets⟩, member⟩⟩
    · rintro ⟨s, start, member⟩
      obtain ⟨q, ⟨s', same, gets⟩, after⟩ := ih.mp member
      obtain rfl : s' = s := same
      exact ⟨q, ⟨s', start, gets⟩, after⟩

/-- What can be read from a shared state on is read in both graphs. -/
theorem Embedded.gets (embedded : Embedded place base baseOther few pieces spare) {s code t : Nat} (positive : 0 < s) :
    Gets baseOther (place s) code t ↔ ∃ q, 0 < q ∧ Gets base s code q ∧ t = place q := by
  have path : ∀ a b : Nat, Silent baseOther a b → ∀ s, 0 < s → a = place s → ∃ q, 0 < q ∧ Silent base s q ∧ b = place q := by
    intro a b silent
    induction silent using Relation.ReflTransGen.head_induction_on with
    | refl => exact fun s positive same => ⟨s, positive, .refl, same⟩
    | head edge _ ih =>
      rintro s positive rfl
      rw [embedded.state s positive, State.relocated_epsilon] at edge
      obtain ⟨q, edgeQ, rfl⟩ := List.mem_map.mp edge
      obtain ⟨r, positiveR, silent, same⟩ := ih q (embedded.ruledFew.sealed s positive q edgeQ) rfl
      exact ⟨r, positiveR, silent.head edgeQ, same⟩
  have pathBack : ∀ s q : Nat, Silent base s q → 0 < s → 0 < q ∧ Silent baseOther (place s) (place q) := by
    intro s q silent
    induction silent using Relation.ReflTransGen.head_induction_on with
    | refl => exact fun positive => ⟨positive, .refl⟩
    | @head a b edge _ ih =>
      intro positive
      obtain ⟨positiveQ, silent⟩ := ih (embedded.ruledFew.sealed a positive b edge)
      refine ⟨positiveQ, silent.head ?_⟩
      rw [embedded.state a positive, State.relocated_epsilon]
      exact List.mem_map_of_mem edge
  constructor
  · rintro ⟨a, silent, accepts, goes⟩
    obtain ⟨q, positiveQ, silentQ, rfl⟩ := path _ _ silent s positive rfl
    rw [embedded.state q positiveQ] at accepts goes
    obtain ⟨n, goesN, rfl⟩ := Option.map_eq_some_iff.mp goes
    exact ⟨n, Nat.lt_of_le_of_lt (Nat.zero_le _) (embedded.ruledFew.fresh.next q n goesN).1, ⟨q, silentQ, accepts, goesN⟩, rfl⟩
  · rintro ⟨n, _, ⟨q, silent, accepts, goes⟩, rfl⟩
    obtain ⟨positiveQ, silentOther⟩ := pathBack s q silent positive
    refine ⟨place q, silentOther, ?_, ?_⟩
    · rw [embedded.state q positiveQ]
      exact accepts
    · rw [embedded.state q positiveQ, State.relocated_next, goes, Option.map_some]

theorem Embedded.entered (embedded : Embedded place base baseOther few pieces spare) {s t : Nat} {text : List Char}
    (positive : 0 < s) : t ∈ baseOther.entered {place s} text ↔ ∃ q, 0 < q ∧ q ∈ base.entered {s} text ∧ t = place q := by
  induction text generalizing s with
  | nil =>
    constructor
    · exact fun same => ⟨s, positive, rfl, same⟩
    · rintro ⟨q, _, same, rfl⟩
      exact congrArg place same
  | cons c rest ih =>
    unfold Graph.entered
    rw [mem_entered]
    constructor
    · rintro ⟨a, ⟨_, rfl, gets⟩, member⟩
      obtain ⟨q, positiveQ, getsQ, rfl⟩ := (embedded.gets positive).mp gets
      obtain ⟨r, positiveR, memberR, rfl⟩ := (ih positiveQ).mp member
      exact ⟨r, positiveR, mem_entered.mpr ⟨q, ⟨s, rfl, getsQ⟩, memberR⟩, rfl⟩
    · rintro ⟨r, positiveR, memberR, rfl⟩
      obtain ⟨q, ⟨_, rfl, getsQ⟩, memberQ⟩ := mem_entered.mp memberR
      have positiveQ : 0 < q := by
        obtain ⟨a, _, _, goes⟩ := getsQ
        exact Nat.lt_of_le_of_lt (Nat.zero_le _) (embedded.ruledFew.fresh.next a q goes).1
      exact ⟨place q, ⟨place _, rfl, (embedded.gets positive).mpr ⟨q, positiveQ, getsQ, rfl⟩⟩,
        (ih positiveQ).mpr ⟨r, positiveR, memberQ, rfl⟩⟩

/-- A text is read from the first states of the rules on. -/
theorem Ruled.entered_initial (ruled : Ruled base pieces) {c : Char} {rest : List Char} {t : Nat} :
    t ∈ base.entered {0} (c :: rest) ↔ ∃ q ∈ (base.state 0).epsilon, t ∈ base.entered {q} (c :: rest) := by
  have gets : ∀ code n, Gets base 0 code n ↔ ∃ q ∈ (base.state 0).epsilon, Gets base q code n := by
    intro code n
    constructor
    · rintro ⟨a, silent, accepts, goes⟩
      rcases Relation.ReflTransGen.cases_head silent with rfl | ⟨q, edge, after⟩
      · rw [ruled.initial] at goes
        cases goes
      · exact ⟨q, edge, a, after, accepts, goes⟩
    · rintro ⟨q, edge, a, after, accepts, goes⟩
      exact ⟨a, after.head edge, accepts, goes⟩
  unfold Graph.entered
  rw [mem_entered]
  constructor
  · rintro ⟨n, ⟨_, rfl, first⟩, member⟩
    obtain ⟨q, edge, getsQ⟩ := (gets _ n).mp first
    exact ⟨q, edge, mem_entered.mpr ⟨n, ⟨q, rfl, getsQ⟩, member⟩⟩
  · rintro ⟨q, edge, member⟩
    obtain ⟨n, ⟨_, rfl, getsQ⟩, after⟩ := mem_entered.mp member
    exact ⟨n, ⟨0, rfl, (gets _ n).mpr ⟨_, edge, getsQ⟩⟩, after⟩

/-- A spare rule is found after its texts. -/
theorem Embedded.spare_found (embedded : Embedded place base baseOther few pieces spare) (mode : Closing) {p : RulePiece}
    (member : p ∈ spare) {text : List Char} {k : Kind} :
    KindFound baseOther (baseOther.completeAll mode) {p.start} text (some k) ↔ p.kind = k ∧ text ∈ p.texts := by
  have isPiece := embedded.sub p member
  have bounds := embedded.ruled.lt_past p isPiece
  have inside := (embedded.spare_inside member).2
  have ways := (embedded.ruled.shape p isPiece).ways_eq
  have within : ∀ t, t ∈ baseOther.entered {p.start} text → (p.start ≤ t ∧ t < p.past) ∧
      (t = p.stop → Way baseOther p.stop p.start text) := by
    intro t there
    obtain ⟨s, same, path⟩ := exists_path_iff.mpr ⟨t, there, .refl⟩
    obtain rfl : s = p.start := same
    exact embedded.ruled.path_within isPiece path (Nat.le_refl _) (by omega)
  have kinds : ∀ t : Nat, p.start ≤ t → t < p.past →
      ((baseOther.completeAll mode).state t).kind = (baseOther.state t).kind := fun t low high =>
    (embedded.completeAll_kinds mode mode).2 t (by omega) (embedded.apart p member t low high)
  constructor
  · rintro ⟨t, there, kind⟩
    obtain ⟨⟨low, high⟩, way⟩ := within t there
    rw [kinds t low high] at kind
    obtain ⟨atStop, same⟩ := embedded.ruled.kind_inner isPiece low high kind.symm
    refine ⟨same.symm, ?_⟩
    rw [← ways]
    exact way atStop
  · rintro ⟨rfl, matched⟩
    rw [← ways] at matched
    have way : Way baseOther p.stop p.start text := matched
    have path : ∃ s ∈ ({p.start} : Set Nat), baseOther.Path s text p.stop := ⟨p.start, rfl, way.path⟩
    obtain ⟨t, there, silent⟩ := exists_path_iff.mp path
    obtain ⟨⟨low, high⟩, _⟩ := within t there
    obtain rfl : t = p.stop := by
      rcases Relation.ReflTransGen.cases_head silent with same | ⟨q, edge, _⟩
      · exact same
      · have edge : q ∈ (baseOther.state t).epsilon := edge
        rw [embedded.chain p member t low high] at edge
        cases edge
    exact ⟨p.stop, there, by rw [kinds p.stop low high, embedded.ruled.stop p isPiece]⟩

/-- Besides what is found without them, the kinds of the spare rules are found after their texts. -/
theorem Embedded.kindFound_iff (embedded : Embedded place base baseOther few pieces spare) (mode other : Closing)
    {text : List Char} (unread : text ≠ []) {k : Kind} :
    KindFound baseOther (baseOther.completeAll other) {0} text (some k) ↔
      KindFound base (base.completeAll mode) {0} text (some k) ∨ ∃ p ∈ spare, p.kind = k ∧ text ∈ p.texts := by
  obtain ⟨c, rest, rfl⟩ := List.exists_cons_of_ne_nil unread
  have kinds := (embedded.completeAll_kinds mode other).1
  constructor
  · rintro ⟨t, there, kind⟩
    obtain ⟨start, edge, member⟩ := embedded.ruled.entered_initial.mp there
    have positive := embedded.ruled.start_pos edge
    rcases embedded.covered start positive (embedded.ruled.fresh.target 0 start edge) with ⟨s, rfl⟩ | ⟨p, spare, low, high⟩
    · have edgeS := (embedded.opening s).mp edge
      obtain ⟨q, positiveQ, memberQ, rfl⟩ := (embedded.entered (embedded.ruledFew.start_pos edgeS)).mp member
      rw [kinds q positiveQ (embedded.ruledFew.fresh.entered_bounds unread memberQ).2] at kind
      exact .inl ⟨q, embedded.ruledFew.entered_initial.mpr ⟨s, edgeS, memberQ⟩, kind⟩
    · obtain rfl := embedded.ruled.entered (embedded.sub p spare) 0 start edge low high
        (.inl (embedded.spare_inside spare).1)
      exact .inr ⟨p, spare, (embedded.spare_found other spare).mp ⟨t, member, kind⟩⟩
  · rintro (⟨q, there, kind⟩ | ⟨p, spare, found⟩)
    · obtain ⟨s, edge, member⟩ := embedded.ruledFew.entered_initial.mp there
      obtain ⟨positive, inside⟩ := embedded.ruledFew.fresh.entered_bounds unread there
      refine ⟨place q, embedded.ruled.entered_initial.mpr ⟨place s, (embedded.opening s).mpr edge, ?_⟩, ?_⟩
      · exact (embedded.entered (embedded.ruledFew.start_pos edge)).mpr ⟨q, positive, member, rfl⟩
      · rw [kinds q positive inside]
        exact kind
    · obtain ⟨t, member, kind⟩ := (embedded.spare_found other spare).mpr found
      refine ⟨t, embedded.ruled.entered_initial.mpr ⟨p.start, ?_, member⟩, kind⟩
      rw [embedded.ruled.initial]
      exact List.mem_map.mpr ⟨p, embedded.sub p spare, rfl⟩

end TokenTables.Automaton.Graph
