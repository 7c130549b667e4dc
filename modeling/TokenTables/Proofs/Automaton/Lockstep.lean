import TokenTables.Proofs.Automaton.Closing

/-!
Closing one state in two graphs at once. Where a region of the one is found in the other, at other places but in the same
order, and nothing that matters is added from the closed states next to it, the rounds go in lockstep and leave the same
states behind.
-/

namespace TokenTables.Automaton.Graph

/-- A closed state that lists gain nothing from. -/
structure Quiet (g : Graph) (s : Nat) : Prop where
  closed : (g.state s).isClosed = true
  still : (g.state s).matters = false
  list : ∀ x ∈ (g.state s).epsilon, (g.state x).matters = false

/-- A state of the region, or a quiet one of the same kind in both graphs. -/
def Shared (place : Nat → Nat) (region : Set Nat) (count : Nat) (g h : Graph) (s : Nat) : Prop :=
  s < count ∧ (s ∈ region ∨ (Quiet g s ∧ Quiet h (place s) ∧ (h.state (place s)).kind = (g.state s).kind))

/-- The states of a region are the same in both graphs, but for their places. -/
structure Lockstep (place : Nat → Nat) (region : Set Nat) (count : Nat) (g h : Graph) : Prop where
  keeps : StrictMono place
  inside : count ≤ g.size
  insideOther : ∀ s < count, place s < h.size
  same : ∀ s ∈ region, h.state (place s) = (g.state s).relocated place
  edge : ∀ s ∈ region, ∀ t ∈ (g.state s).epsilon, Shared place region count g h t

variable {base g h : Graph} {sem : Standing} {place : Nat → Nat} {region : Set Nat} {count : Nat}

theorem Lockstep.count_le (lock : Lockstep place region count g h) : count ≤ h.size := by
  cases count with
  | zero => exact Nat.zero_le _
  | succ last =>
    have above := lock.keeps.le_apply (x := last)
    have below := lock.insideOther last (Nat.lt_succ_self last)
    omega

/-! ### Gathering -/

theorem gatherOne_map (keeps : StrictMono place) {found : List Nat} {id : Nat}
    (same : (h.state (place id)).matters = (g.state id).matters) :
    h.gatherOne (found.map place) (place id) = (g.gatherOne found id).map place := by
  have listed : (found.map place).contains (place id) = found.contains id := by
    rw [Bool.eq_iff_iff, List.contains_iff_mem, List.contains_iff_mem]
    exact List.mem_map_of_injective keeps.injective
  unfold gatherOne
  rw [same, listed, insertNat_map keeps]
  split
  · rfl
  · rfl

theorem gatherAlong_map (keeps : StrictMono place) {ids found : List Nat}
    (same : ∀ x ∈ ids, (h.state (place x)).matters = (g.state x).matters) :
    (ids.map place).foldl h.gatherOne (found.map place) = (ids.foldl g.gatherOne found).map place := by
  induction ids generalizing found with
  | nil => rfl
  | cons x rest ih =>
    rw [List.map_cons, List.foldl_cons, List.foldl_cons, gatherOne_map keeps (same x List.mem_cons_self)]
    exact ih fun y member => same y (List.mem_cons_of_mem _ member)

/-- Nothing is gathered from a quiet state. -/
theorem Quiet.gatherFrom {s : Nat} (quiet : Quiet g s) (found : List Nat) : g.gatherFrom s found = found := by
  have along : ∀ ids : List Nat, (∀ x ∈ ids, (g.state x).matters = false) → ids.foldl g.gatherOne found = found := by
    intro ids still
    induction ids with
    | nil => rfl
    | cons x rest ih =>
      have first : g.gatherOne found x = found := by
        unfold gatherOne
        rw [still x List.mem_cons_self]
        rfl
      rw [List.foldl_cons, first]
      exact ih fun y member => still y (List.mem_cons_of_mem _ member)
  exact along _ quiet.list

theorem Shared.matters {s : Nat} (lock : Lockstep place region count g h) (shared : Shared place region count g h s) :
    (h.state (place s)).matters = (g.state s).matters := by
  rcases shared.2 with inRegion | ⟨quiet, quietOther, _⟩
  · rw [lock.same s inRegion, State.relocated_matters]
  · rw [quiet.still, quietOther.still]

theorem Shared.kind {s : Nat} (lock : Lockstep place region count g h) (shared : Shared place region count g h s) :
    (h.state (place s)).kind = (g.state s).kind := by
  rcases shared.2 with inRegion | ⟨_, _, same⟩
  · rw [lock.same s inRegion, State.relocated_kind]
  · exact same

theorem Lockstep.gatherFrom (lock : Lockstep place region count g h) {s : Nat} (shared : Shared place region count g h s)
    (found : List Nat) : h.gatherFrom (place s) (found.map place) = (g.gatherFrom s found).map place := by
  rcases shared.2 with inRegion | ⟨quiet, quietOther, _⟩
  · rw [gatherFrom_eq, gatherFrom_eq, lock.same s inRegion, State.relocated_epsilon]
    exact gatherAlong_map lock.keeps fun x member => (lock.edge s inRegion x member).matters lock
  · rw [quiet.gatherFrom, quietOther.gatherFrom]

/-- What lies behind a shared state and matters is shared. -/
theorem Lockstep.behind (lock : Lockstep place region count g h) {s x : Nat} (shared : Shared place region count g h s)
    (edge : x ∈ (g.state s).epsilon) (matters : (g.state x).matters = true) : Shared place region count g h x := by
  rcases shared.2 with inRegion | ⟨quiet, _⟩
  · exact lock.edge s inRegion x edge
  · rw [quiet.list x edge] at matters
    cases matters

theorem Lockstep.gatherFrom_room (lock : Lockstep place region count g h) {s : Nat}
    (shared : Shared place region count g h s) (found : List Nat) :
    (g.gatherFrom s found).length + unvisited count (g.gatherFrom s found) ≤ found.length + unvisited count found := by
  rcases shared.2 with inRegion | ⟨quiet, _⟩
  · exact unvisited_gatherAlong fun x member => (lock.edge s inRegion x member).1
  · rw [quiet.gatherFrom]

/-- Both graphs gather the same, each with as many places as it has states. -/
theorem Lockstep.gather (lock : Lockstep place region count g h) {places others i : Nat} {found : List Nat}
    {kind : Option Kind} (all : ∀ x ∈ found, Shared place region count g h x)
    (enough : found.length + unvisited count found ≤ places + i)
    (enoughOther : found.length + unvisited count found ≤ others + i) :
    h.gather others i (found.map place) kind = (g.gather places i found kind).map (List.map place) id := by
  induction places generalizing others i found kind with
  | zero =>
    have out : (found.map place)[i]? = none := List.getElem?_eq_none (by rw [List.length_map]; omega)
    cases others with
    | zero => rfl
    | succ others =>
      rw [Graph.gather, Graph.gather, out]
      rfl
  | succ places ih =>
    have moved : (found.map place)[i]? = (found[i]?).map place := List.getElem?_map
    cases here : found[i]? with
    | none =>
      rw [here] at moved
      cases others with
      | zero =>
        rw [Graph.gather, Graph.gather, here]
        rfl
      | succ others =>
        rw [Graph.gather, Graph.gather, here, moved]
        rfl
    | some s =>
      rw [here] at moved
      have at_ := (List.getElem?_eq_some_iff.mp here).1
      have shared := all s (List.mem_of_getElem? here)
      have room := lock.gatherFrom_room shared found
      cases others with
      | zero => omega
      | succ others =>
        rw [Graph.gather, Graph.gather, here, moved]
        dsimp only [Option.map_some]
        rw [lock.gatherFrom shared, shared.kind lock]
        refine ih (fun x member => ?_) (by omega) (by omega)
        rcases mem_gatherFrom.mp member with old | ⟨new, matters⟩
        · exact all x old
        · exact lock.behind shared new matters

/-! ### Absorbing -/

theorem Lockstep.absorbed (lock : Lockstep place region count g h) {s : Nat} (member : s ∈ region) :
    h.absorbed (place s) = (g.absorbed s).map (List.map place) id := by
  have room := unvisited_le count (g.state s).epsilon
  have inside := lock.inside
  have insideOther := lock.count_le
  unfold Graph.absorbed gatherAll
  rw [lock.same s member, State.relocated_epsilon, State.relocated_kind, List.length_map]
  exact lock.gather (lock.edge s member) (by omega) (by omega)

theorem Lockstep.absorbedList (lock : Lockstep place region count g h) {s : Nat} (member : s ∈ region) :
    h.absorbedList (place s) = (g.absorbedList s).map place := by
  have listed : ((g.absorbed s).1.map place).contains (place s) = (g.absorbed s).1.contains s := by
    rw [Bool.eq_iff_iff, List.contains_iff_mem, List.contains_iff_mem]
    exact List.mem_map_of_injective lock.keeps.injective
  have list : (h.absorbed (place s)).1 = (g.absorbed s).1.map place := congrArg Prod.fst (lock.absorbed member)
  unfold Graph.absorbedList
  rw [list, lock.same s member, State.relocated_hasMoves, listed, insertNat_map lock.keeps]
  split
  · rfl
  · rfl

theorem Lockstep.absorb (lock : Lockstep place region count g h) {s : Nat} (member : s ∈ region) (inside : s < count)
    (isOpen : (g.state s).isClosed = false) : Lockstep place region count (g.absorb s).1 (h.absorb (place s)).1 ∧
      (h.absorb (place s)).2 = (g.absorb s).2 := by
  have state := absorb_state_same (inside.trans_le lock.inside)
  have stateOther := absorb_state_same (lock.insideOther s inside)
  -- A quiet state is closed, so it is not the one that absorbs.
  have stillShared : ∀ t, Shared place region count g h t →
      Shared place region count (g.absorb s).1 (h.absorb (place s)).1 t := by
    rintro t ⟨insideT, inRegion | ⟨quiet, quietOther, kind⟩⟩
    · exact ⟨insideT, .inl inRegion⟩
    have different : t ≠ s := by
      rintro rfl
      rw [quiet.closed] at isOpen
      cases isOpen
    have still : ∀ {g : Graph} {s t : Nat}, t ≠ s → Quiet g t → Quiet (g.absorb s).1 t := fun different quiet =>
      ⟨by rw [absorb_state_other different]; exact quiet.closed, by rw [absorb_sameFrame.matters]; exact quiet.still,
        fun x edge => by
          rw [absorb_state_other different] at edge
          rw [absorb_sameFrame.matters]
          exact quiet.list x edge⟩
    have differentOther : place t ≠ place s := lock.keeps.injective.ne different
    refine ⟨insideT, .inr ⟨still different quiet, still differentOther quietOther, ?_⟩⟩
    rw [absorb_state_other different, absorb_state_other differentOther]
    exact kind
  refine ⟨⟨lock.keeps, ?_, fun t below => ?_, fun t inRegion => ?_, fun t inRegion x edge => ?_⟩, ?_⟩
  · rw [absorb_sameFrame.size]
    exact lock.inside
  · rw [absorb_sameFrame.size]
    exact lock.insideOther t below
  · by_cases here : t = s
    · rw [here, state, stateOther, lock.absorbedList member, lock.absorbed member, lock.same s member]
      rfl
    · rw [absorb_state_other here, absorb_state_other (lock.keeps.injective.ne here), lock.same t inRegion]
  · by_cases here : t = s
    · rw [here, state] at edge
      rcases mem_absorbedList.mp edge with found | ⟨_, rfl⟩
      · exact stillShared x (gather_all (fun q shared x edge matters => lock.behind shared edge matters)
          (lock.edge s member) x found)
      · exact ⟨inside, .inl member⟩
    · rw [absorb_state_other here] at edge
      exact stillShared x (lock.edge t inRegion x edge)
  · have list : (h.absorbed (place s)).1 = (g.absorbed s).1.map place := congrArg Prod.fst (lock.absorbed member)
    rw [absorb_snd, absorb_snd, list, lock.same s member, State.relocated_epsilon, List.length_map, List.length_map]

theorem Lockstep.absorbAll (lock : Lockstep place region count g h) {ids : List Nat}
    (sub : ∀ s ∈ ids, s ∈ region ∧ s < count) (opens : ∀ s ∈ ids, Open g s) :
    Lockstep place region count (g.absorbAll ids).1 (h.absorbAll (ids.map place)).1 ∧
      (h.absorbAll (ids.map place)).2 = (g.absorbAll ids).2 := by
  induction ids generalizing g h with
  | nil => exact ⟨lock, rfl⟩
  | cons s rest ih =>
    obtain ⟨member, inside⟩ := sub s List.mem_cons_self
    obtain ⟨next, grew⟩ := lock.absorb member inside (opens s List.mem_cons_self).unclosed
    obtain ⟨last, grewRest⟩ := ih next (fun t there => sub t (List.mem_cons_of_mem _ there)) fun t there =>
      absorb_sameFrame.open_iff.mpr (opens t (List.mem_cons_of_mem _ there))
    rw [List.map_cons, absorbAll_cons, absorbAll_cons]
    exact ⟨last, by rw [grew, grewRest]⟩

/-! ### Walking -/

/-- A step at another place. -/
def relocatedStep (place : Nat → Nat) : WalkStep → WalkStep
  | .enter s => .enter (place s)
  | .leave s => .leave (place s)

theorem Lockstep.walk (lock : Lockstep place region count g h) {todo : List WalkStep} {entered left : List Nat}
    (shared : ∀ s, WalkStep.enter s ∈ todo → Shared place region count g h s) :
    h.walk (todo.map (relocatedStep place)) (entered.map place) (left.map place) = (g.walk todo entered left).map place := by
  have listed : ∀ (entered : List Nat) s, (entered.map place).contains (place s) = entered.contains s := by
    intro entered s
    rw [Bool.eq_iff_iff, List.contains_iff_mem, List.contains_iff_mem]
    exact List.mem_map_of_injective lock.keeps.injective
  induction todo, entered, left using walk.induct g with
  | case1 entered left =>
    rw [List.map_nil, Graph.walk, Graph.walk, List.map_reverse]
  | case2 s todo entered left ih =>
    rw [List.map_cons, relocatedStep, Graph.walk, Graph.walk]
    exact ih fun t member => shared t (List.mem_cons_of_mem _ member)
  | case3 s todo entered left fresh ih =>
    have here := shared s List.mem_cons_self
    have inRegion : s ∈ region := by
      rcases here.2 with inRegion | ⟨quiet, _⟩
      · exact inRegion
      · have unclosed := fresh.2.2
        rw [quiet.closed] at unclosed
        cases unclosed
    have freshOther : place s < h.size ∧ (entered.map place).contains (place s) = false ∧
        (h.state (place s)).isClosed = false := by
      rw [lock.same s inRegion, listed, State.relocated_isClosed]
      exact ⟨lock.insideOther s here.1, fresh.2⟩
    have steps : ((g.state s).epsilon.map WalkStep.enter ++ WalkStep.leave s :: todo).map (relocatedStep place) =
        ((g.state s).epsilon.map place).map WalkStep.enter ++
          WalkStep.leave (place s) :: todo.map (relocatedStep place) := by
      rw [List.map_append, List.map_cons, List.map_map, List.map_map]
      rfl
    rw [List.map_cons, relocatedStep, Graph.walk, dif_pos freshOther, Graph.walk, dif_pos fresh, lock.same s inRegion,
      State.relocated_epsilon, ← steps]
    refine ih fun t member => ?_
    rcases List.mem_append.mp member with entering | later
    · obtain ⟨u, edge, same⟩ := List.mem_map.mp entering
      obtain rfl := WalkStep.enter.inj same
      exact lock.edge s inRegion u edge
    · exact shared t (List.mem_cons_of_mem _ (by simpa using later))
  | case4 s todo entered left stale ih =>
    have here := shared s List.mem_cons_self
    have staleOther : ¬ (place s < h.size ∧ (entered.map place).contains (place s) = false ∧
        (h.state (place s)).isClosed = false) := by
      rintro ⟨_, new, unclosed⟩
      rcases here.2 with inRegion | ⟨_, quiet, _⟩
      · rw [lock.same s inRegion, State.relocated_isClosed] at unclosed
        exact stale ⟨here.1.trans_le lock.inside, listed entered s ▸ new, unclosed⟩
      · rw [quiet.closed] at unclosed
        cases unclosed
    rw [List.map_cons, relocatedStep, Graph.walk, dif_neg staleOther, Graph.walk, dif_neg stale]
    exact ih fun t member => shared t (List.mem_cons_of_mem _ member)

theorem Lockstep.openReach (lock : Lockstep place region count g h) {id : Nat} (member : id ∈ region) (inside : id < count) :
    h.openReach (place id) = (g.openReach id).map place ∧ ∀ s ∈ g.openReach id, s ∈ region ∧ s < count := by
  refine ⟨@Lockstep.walk _ _ _ _ _ lock [.enter id] [] [] fun s there => ?_, fun s there => ?_⟩
  · obtain rfl := WalkStep.enter.inj (List.mem_singleton.mp there)
    exact ⟨inside, .inl member⟩
  · have path := (mem_openReach.mp there).2
    induction path with
    | refl => exact ⟨member, inside⟩
    | @tail q t path edge ih =>
      have before := (ih (mem_openReach.mpr ⟨(mem_openReach.mp there).1, path⟩)).1
      obtain ⟨insideT, inRegion | ⟨quiet, _⟩⟩ := lock.edge q before t edge.1
      · exact ⟨inRegion, insideT⟩
      · have unclosed := edge.2.unclosed
        rw [quiet.closed] at unclosed
        cases unclosed

/-! ### Rounds -/

/-- Marking a state as closed changes nothing else. -/
theorem state_mark {s t : Nat} : (g.alter s fun s => { s with isClosed := true }).state t =
    { g.state t with isClosed := (g.state t).isClosed || decide (t = s ∧ s < g.size) } := by
  rw [state_alter]
  split
  · rename_i here
    rw [here.1, decide_eq_true ⟨rfl, here.2⟩, Bool.or_true]
  · rename_i other
    rw [decide_eq_false other, Bool.or_false]

theorem Quiet.mark {s t : Nat} (quiet : Quiet g t) : Quiet (g.alter s fun s => { s with isClosed := true }) t := by
  have matters : ∀ x : Nat, ((g.alter s fun s => { s with isClosed := true }).state x).matters = (g.state x).matters :=
    fun x => by
      rw [state_mark]
      rfl
  refine ⟨?_, (matters t).trans quiet.still, fun x edge => ?_⟩
  · rw [state_mark, quiet.closed]
    rfl
  · rw [state_mark] at edge
    exact (matters x).trans (quiet.list x edge)

theorem Lockstep.mark (lock : Lockstep place region count g h) {s : Nat} (inside : s < count) :
    Lockstep place region count (g.alter s fun s => { s with isClosed := true })
      (h.alter (place s) fun s => { s with isClosed := true }) := by
  have stillShared : ∀ t, Shared place region count g h t → Shared place region count
      (g.alter s fun s => { s with isClosed := true }) (h.alter (place s) fun s => { s with isClosed := true }) t := by
    rintro t ⟨insideT, inRegion | ⟨quiet, quietOther, kind⟩⟩
    · exact ⟨insideT, .inl inRegion⟩
    · refine ⟨insideT, .inr ⟨quiet.mark, quietOther.mark, ?_⟩⟩
      rw [state_mark, state_mark]
      exact kind
  refine ⟨lock.keeps, ?_, fun t below => ?_, fun t inRegion => ?_, fun t inRegion x edge => ?_⟩
  · rw [size_alter]
    exact lock.inside
  · rw [size_alter]
    exact lock.insideOther t below
  · have here : (place t = place s ∧ place s < h.size) ↔ (t = s ∧ s < g.size) :=
      and_congr lock.keeps.injective.eq_iff (iff_of_true (lock.insideOther s inside) (inside.trans_le lock.inside))
    rw [state_mark, state_mark, lock.same t inRegion, decide_eq_decide.mpr here]
    rfl
  · rw [state_mark] at edge
    exact stillShared x (lock.edge t inRegion x edge)

theorem Lockstep.markClosed (lock : Lockstep place region count g h) {ids : List Nat} (inside : ∀ s ∈ ids, s < count) :
    Lockstep place region count (g.markClosed ids) (h.markClosed (ids.map place)) := by
  induction ids generalizing g h with
  | nil => exact lock
  | cons s rest ih =>
    obtain ⟨here, later⟩ := List.forall_mem_cons.mp inside
    exact ih (lock.mark here) later

/-- Rounds in lockstep end together, however many each graph could have. -/
theorem Lockstep.closeRounds {baseOther : Graph} {semOther : Standing} (lock : Lockstep place region count g h)
    (sound : Sound base sem g) (soundOther : Sound baseOther semOther h) {id rounds others : Nat} (member : id ∈ region)
    (inside : id < count) (enough : g.room < rounds) (enoughOther : h.room < others) :
    Lockstep place region count (closeRounds id rounds g) (closeRounds (place id) others h) := by
  induction rounds generalizing g h others with
  | zero => omega
  | succ rounds ih =>
    cases others with
    | zero => omega
    | succ others =>
      obtain ⟨sameReach, sub⟩ := lock.openReach member inside
      obtain ⟨next, grew⟩ := lock.absorbAll sub fun s => open_of_mem_openReach
      have insideG : ∀ s ∈ g.openReach id, s < g.size := fun s there => (sub s there).2.trans_le lock.inside
      have insideH : ∀ t ∈ (g.openReach id).map place, t < h.size := fun t there => by
        obtain ⟨s, walked, rfl⟩ := List.mem_map.mp there
        exact lock.insideOther s (sub s walked).2
      rw [Graph.closeRounds, Graph.closeRounds]
      dsimp only
      rw [sameReach, grew]
      split
      · rename_i grows
        have fewer := (absorbAll_room sound.target insideG).2 grows
        have fewerOther := (absorbAll_room soundOther.target insideH).2 (grew.trans grows)
        exact ih next (absorbAll_sound sound insideG) (absorbAll_sound soundOther insideH) (by omega) (by omega)
      · exact next.markClosed fun s there => (sub s there).2

/-- Closing leaves the same states behind in both graphs. -/
theorem Lockstep.close {baseOther : Graph} {semOther : Standing} (lock : Lockstep place region count g h)
    (sound : Sound base sem g) (soundOther : Sound baseOther semOther h) {id : Nat} (member : id ∈ region)
    (inside : id < count) : Lockstep place region count (g.close id) (h.close (place id)) :=
  lock.closeRounds sound soundOther member inside (Nat.lt_succ_of_le (room_le g)) (Nat.lt_succ_of_le (room_le h))

end TokenTables.Automaton.Graph
