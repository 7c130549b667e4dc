import TokenTables.Proofs.Automaton.Merging

/-!
Closing a whole graph. Every state that is entered comes to a list of states with moves that reads whatever can be
read from it on, and a state made for merged moves has the best kind of the states it stands for.
-/

namespace TokenTables.Automaton.Graph

open Relation (ReflTransGen)
open Kind (NoLater)

variable {base g after : Graph} {sem semAfter : Standing} {id : Nat}

/-! ### The list of a closed state -/

theorem mergeEqualMoves_single : g.mergeEqualMoves [] [id] = (g, [id]) := by
  rw [mergeEqualMoves]
  split
  · rw [mergeEqualMoves]
    rfl
  · rename_i split
    cases split

theorem mergeCommonNext_single : g.mergeCommonNext [] [id] = (g, [id]) := by
  rw [mergeCommonNext]
  split
  · rw [mergeCommonNext]
    rfl
  · rename_i split
    cases split

/-- Nothing is merged in a list of one state. -/
theorem mergeAll_short {rule : MergeRule} {ids : List Nat} (short : ids = [] ∨ ids = [id]) :
    mergeAll rule g ids = (g, ids) := by
  have once : mergeOnce rule g ids = (g, ids) := by
    unfold mergeOnce
    rcases short with rfl | rfl
    · simp [mergeEqualMoves, mergeCommonNext]
    · cases rule.equalMoves <;> cases rule.commonNext <;>
        simp [mergeEqualMoves_single, mergeCommonNext_single]
  rw [mergeAll_eq, once, if_neg (Nat.lt_irrefl _)]

/-- A closed state may have any list that reads the same and means no more. -/
theorem Represents.relist (rep : Represents base sem g) {useful : List Nat} {count : Nat}
    (closed : (g.state id).isClosed = true) (inside : ∀ m ∈ useful, m < g.size)
    (behind : ∀ m ∈ useful, Behind base sem id m)
    (alone : ∀ n, (g.state id).next = some n → useful = [] ∨ useful = [id])
    (complete : ∀ code t, GetsAny base sem id code t → ∃ m ∈ useful, MovesTo g sem m code t) :
    Represents base sem (g.alter id fun s => { s with epsilon := useful, keptEpsilon := count }) := by
  have here := lt_of_isClosed closed
  generalize changed : (g.alter id fun s => { s with epsilon := useful, keptEpsilon := count }) = after
  have frame : ({ after with states := #[] } : Graph) = { g with states := #[] } := by
    rw [← changed]
    rfl
  have size : after.size = g.size := by
    rw [← changed, size_alter]
  have same : after.state id = { g.state id with epsilon := useful, keptEpsilon := count } := by
    rw [← changed, state_alter_same here]
  have other : ∀ s : Nat, s ≠ id → after.state s = g.state s := fun s different => by
    rw [← changed, state_alter_other different]
  have state : ∀ s : Nat, after.state s = { g.state s with
      epsilon := (after.state s).epsilon, keptEpsilon := (after.state s).keptEpsilon } := by
    intro s
    by_cases isId : s = id
    · rw [isId, same]
    · rw [other s isId]
  have movesTo : ∀ {s code t : Nat}, MovesTo after sem s code t ↔ MovesTo g sem s code t := by
    intro s code t
    unfold MovesTo
    rw [state s]
  refine {
    target := fun s q member => ?_
    behind := fun s q member => ?_
    kind := fun s k kind => ?_
    alone := fun s n goes => ?_
    size_le := ?_
    initial := ?_
    noNames := ?_
    unnamed := fun s => ?_
    self := rep.self
    kept := fun s inside => ?_
    untouched := fun s inside isOpen => ?_
    idle := fun s halts => ?_
    valid := fun s => ?_
    next := fun s n goes => ?_
    again := fun s n m goes more => ?_
    mover := fun s n goes code t => ?_
    complete := fun s status code t gets => ?_
    chain := fun s code t low gets => ?_
    cache := fun members m member => ?_ }
  · rw [size]
    by_cases isId : s = id
    · rw [isId, same] at member
      exact inside q member
    · rw [other s isId] at member
      exact rep.target s q member
  · by_cases isId : s = id
    · rw [isId, same] at member
      exact isId ▸ behind q member
    · rw [other s isId] at member
      exact rep.behind s q member
  · rw [state s] at kind
    exact rep.kind s k kind
  · by_cases isId : s = id
    · rw [isId, same] at goes ⊢
      exact ⟨(rep.alone id n goes).1, alone n goes⟩
    · rw [other s isId] at goes ⊢
      exact rep.alone s n goes
  · rw [size]
    exact rep.size_le
  · exact (congrArg Graph.initial frame).trans rep.initial
  · exact ⟨(congrArg Graph.named frame).trans rep.noNames.1, (congrArg Graph.groups frame).trans rep.noNames.2⟩
  · rw [state s]
    exact ⟨(rep.unnamed s).reported, (rep.unnamed s).name, (rep.unnamed s).isAlias, (rep.unnamed s).namesBehind,
      (rep.unnamed s).dispatch⟩
  · rw [state s]
    exact rep.kept s inside
  · by_cases isId : s = id
    · rw [isId, same, closed] at isOpen
      cases isOpen
    · rw [other s isId] at isOpen ⊢
      exact rep.untouched s inside isOpen
  · rw [state s] at halts ⊢
    exact rep.idle s halts
  · rw [state s]
    exact rep.valid s
  · rw [state s] at goes ⊢
    rw [size]
    exact rep.next s n goes
  · rw [state s] at goes
    rw [state n] at more
    exact rep.again s n m goes more
  · rw [state s] at goes
    rw [movesTo]
    exact rep.mover s n goes code t
  · by_cases isId : s = id
    · subst isId
      obtain ⟨m, member, moves⟩ := complete code t gets
      rw [same]
      exact ⟨m, member, movesTo.mpr moves⟩
    · rw [other s isId] at status ⊢
      obtain ⟨m, member, moves⟩ := rep.complete s status code t gets
      exact ⟨m, member, movesTo.mpr moves⟩
  · rw [size] at low
    have chain := rep.chain s code t low gets
    clear low gets
    induction chain with
    | mover moves => exact .mover (movesTo.mpr moves)
    | @closed s status gets => exact .closed (by rw [state s]; exact status) gets
    | @step s q edge further ih =>
      by_cases isId : s = id
      · refine .closed ?_ ((rep.behind s q edge).gets (further.gets rep))
        rw [state s, isId]
        exact closed
      · refine .step ?_ ih
        rw [other s isId]
        exact edge
  · rw [merged_of_frame frame] at member
    rw [state m, size]
    exact rep.cache members m member

/-! ### Hubs while the graph is being closed -/

/-- A hub has the best kind of the states it stands for, which are closed. -/
structure BestKind (g : Graph) (sem : Standing) (h : Nat) : Prop where
  closed : ∀ t ∈ sem h, (g.state t).isClosed = true
  some : ∀ k : Kind, (g.state h).kind = some k → ∃ t ∈ sem h, (g.state t).kind = some k
  best : ∀ t ∈ sem h, NoLater (g.state h).kind (g.state t).kind

/-- An original state stands for itself. -/
theorem Represents.bestKind_self (rep : Represents base sem g) {s : Nat} (original : s < base.size)
    (closed : (g.state s).isClosed = true) : BestKind g sem s := by
  have alone : ∀ t ∈ sem s, t = s := fun t stands => by
    rw [rep.self s original] at stands
    exact stands
  refine ⟨fun t stands => ?_, fun k kind => ⟨s, ?_, kind⟩, fun t stands => ?_⟩
  · rw [alone t stands]
    exact closed
  · rw [rep.self s original]
    rfl
  · rw [alone t stands]
    exact .refl _

/-- What closing one state after the other keeps to. -/
structure Progress (base : Graph) (sem : Standing) (g : Graph) : Prop extends Represents base sem g where
  apart : ∀ s q : Nat, q ∈ (g.state s).epsilon → IsHub base g q → IsHub base g s ∧ q < s
  still : ∀ h, IsHub base g h → (g.state h).next = none ∧ (g.state h).isFinal = false
  fresh : ∀ h, IsHub base g h → (g.state h).isClosed = false → FreshHub base g sem h
  best : ∀ h, IsHub base g h → (g.state h).isClosed = true → BestKind g sem h

theorem Fresh.not_isHub (fresh : Fresh base) {h : Nat} : ¬ IsHub base base h := by
  rintro ⟨beyond, s, goes⟩
  have inside := (fresh.next s h goes).2.1
  omega

theorem Fresh.progress (fresh : Fresh base) : Progress base (fun s => {s}) base where
  toRepresents := fresh.represents
  apart _ _ _ hub := absurd hub fresh.not_isHub
  still _ hub := absurd hub fresh.not_isHub
  fresh _ hub := absurd hub fresh.not_isHub
  best _ hub := absurd hub fresh.not_isHub

theorem matters_of_hasMoves {s : State} (moves : s.hasMoves = true) : s.matters = true := by
  unfold State.matters
  rw [moves, Bool.or_true]

theorem Progress.hub_not_matters (prog : Progress base sem g) {h : Nat} (hub : IsHub base g h) :
    (g.state h).matters = false ∧ (g.state h).hasMoves = false := by
  obtain ⟨halts, notFinal⟩ := prog.still h hub
  have noMoves : (g.state h).hasMoves = false := by
    unfold State.hasMoves
    rw [prog.idle h halts, isEmpty_empty]
    rfl
  unfold State.matters
  rw [notFinal, noMoves]
  exact ⟨rfl, rfl⟩

/-- Before its last round a graph that is being closed has gained only states that matter. -/
def GainsUseful (g h : Graph) : Prop :=
  (∀ s : Nat, (g.state s).isClosed = true → h.state s = g.state s) ∧
    ∀ s x : Nat, x ∈ (h.state s).epsilon → x ∈ (g.state s).epsilon ∨ (g.state x).matters = true

theorem gainsUseful_kept : Kept base sem g (GainsUseful g) := by
  rintro h s grows _ isOpen ⟨asBefore, gains⟩
  refine ⟨fun t closed => ?_, fun t x member => ?_⟩
  · have different : t ≠ s := by
      rintro rfl
      rw [(grows.open_iff.mp isOpen).unclosed] at closed
      cases closed
    rw [absorb_state_other different]
    exact asBefore t closed
  · by_cases here : t = s
    · subst here
      rw [absorb_state_same isOpen.inside] at member
      rcases mem_absorbedList.mp member with found | ⟨moves, rfl⟩
      · refine @gather_all h _ (fun x => x ∈ (g.state t).epsilon ∨ (g.state x).matters = true) ?_ _ _ _ ?_ x found
        · exact fun q _ x _ matters => .inr (by rwa [grows.matters] at matters)
        · exact fun x old => gains t x old
      · exact .inr (matters_of_hasMoves (by rwa [grows.hasMoves] at moves))
    · rw [absorb_state_other here] at member
      exact gains t x member

/-- The kind of a hub comes from its links as long as only states with moves lie behind these. -/
def KindFromLinks (g : Graph) (id : Nat) (h : Graph) : Prop :=
  (∀ x : Nat, x ∈ (h.state id).epsilon → x ∈ (g.state id).epsilon ∨ (g.state x).hasMoves = true) ∧
    ∀ k : Kind, (h.state id).kind = some k →
      (g.state id).kind = some k ∨ ∃ q : Nat, q ∈ (g.state id).epsilon ∧ (g.state q).kind = some k

/-- A state with its final list. -/
structure Done (g : Graph) (s : Nat) : Prop where
  closed : (g.state s).isClosed = true
  useful : ∀ q : Nat, q ∈ (g.state s).epsilon → (g.state q).hasMoves = true
  count : (g.state s).keptEpsilon = (g.state s).epsilon.length

theorem kindFromLinks_kept (rep : Represents base sem g) (ready : ∀ q : Nat, q ∈ (g.state id).epsilon → Done g q) :
    Kept base sem g fun h => GainsUseful g h ∧ KindFromLinks g id h := by
  rintro h s grows sound isOpen ⟨useful, links, kinds⟩
  refine ⟨gainsUseful_kept h s grows sound isOpen useful, ?_⟩
  by_cases different : id ≠ s
  · unfold KindFromLinks
    rw [absorb_state_other different]
    exact ⟨links, kinds⟩
  obtain rfl : id = s := not_not.mp different
  have alone : ∀ q : Nat, (g.state q).hasMoves = true →
      (h.state q).kind = none ∧ ∀ x : Nat, x ∈ (h.state q).epsilon → x = q := by
    intro q moves
    obtain ⟨n, goes⟩ := next_of_hasMoves (rep.idle q) moves
    obtain ⟨noKind, list⟩ := sound.alone q n (by rwa [grows.next])
    refine ⟨noKind, fun x member => ?_⟩
    rcases list with bare | single
    · rw [bare] at member
      cases member
    · rw [single] at member
      exact List.mem_singleton.mp member
  have behind : ∀ q : Nat, (q ∈ (g.state id).epsilon ∨ (g.state q).hasMoves = true) →
      ∀ x : Nat, x ∈ (h.state q).epsilon → (h.state x).matters = true →
        x ∈ (g.state id).epsilon ∨ (g.state x).hasMoves = true := by
    rintro q (link | moves) x member _
    · rw [useful.1 q (ready q link).closed] at member
      exact .inr ((ready q link).useful x member)
    · rw [(alone q moves).2 x member]
      exact .inr moves
  have gathered := @gather_all h _ _ behind ((h.state id).epsilon.length + h.size) 0 (h.state id).kind links
  unfold KindFromLinks
  rw [absorb_state_same isOpen.inside]
  refine ⟨fun x member => ?_, fun k result => ?_⟩
  · rcases mem_absorbedList.mp member with found | ⟨moves, rfl⟩
    · exact gathered x found
    · exact .inr (by rwa [grows.hasMoves] at moves)
  · rcases gather_kind behind links result with old | ⟨q, link | moves, kind⟩
    · exact kinds k old
    · rw [useful.1 q (ready q link).closed] at kind
      exact .inr ⟨q, link, kind⟩
    · rw [(alone q moves).1] at kind
      cases kind

/-! ### One state -/

/-- What is asked before a hub is closed. -/
def Ready (base g : Graph) (id : Nat) : Prop :=
  IsHub base g id → (g.state id).isClosed = false → ∀ q : Nat, q ∈ (g.state id).epsilon → Done g q

/-- The walk meets no hub but the one it begins at. -/
theorem Progress.no_other_hub (prog : Progress base sem g) (ready : Ready base g id) {last : Graph}
    (grows : Grows g last) (gains : GainsUseful g last) {x : Nat} (member : x ∈ last.openReach id)
    (hub : IsHub base g x) : x = id := by
  obtain ⟨isOpen, path⟩ := mem_openReach.mp member
  have unclosed := (grows.open_iff.mp isOpen).unclosed
  clear member
  induction path with
  | refl => rfl
  | @tail q x _ edge ih =>
    have old : x ∈ (g.state q).epsilon := by
      rcases gains.2 q x edge.1 with old | matters
      · exact old
      · rw [(prog.hub_not_matters hub).1] at matters
        cases matters
    obtain rfl := ih (prog.apart q x old hub).1
    have closed := (ready (prog.apart q x old hub).1 unclosed x old).closed
    rw [(grows.open_iff.mp edge.2).unclosed] at closed
    cases closed

theorem Progress.kinds_of_hub (prog : Progress base sem g) (ready : Ready base g id) {last h : Graph}
    (closed : Closed base sem g last h id) (links : KindFromLinks g id h) (hub : IsHub base g id)
    (wasOpen : Open g id) : BestKind (h.markClosed (last.openReach id)) sem id := by
  have fresh := prog.fresh id hub wasOpen.unclosed
  have closes := closed.closes
  have kind := closed.marked_kind
  generalize h.markClosed (last.openReach id) = after at closes kind
  -- A link stands for itself or is a hub with the best kind.
  have stood : ∀ q : Nat, q ∈ (g.state id).epsilon → BestKind g sem q := by
    intro q edge
    have closedQ := (ready hub wasOpen.unclosed q edge).closed
    rcases (fresh.links q edge).2 with original | hubQ
    · exact prog.toRepresents.bestKind_self original closedQ
    · exact prog.best q hubQ closedQ
  have settled : ∀ t ∈ sem id, ∃ q : Nat, q ∈ (g.state id).epsilon ∧ t ∈ sem q ∧ after.state t = g.state t := by
    intro t stands
    obtain ⟨q, edge, inQ⟩ := (fresh.stands t).mp stands
    exact ⟨q, edge, inQ, closes.ofClosed t ((stood q edge).closed t inQ)⟩
  refine ⟨fun t stands => ?_, fun k same => ?_, fun t stands => ?_⟩
  · obtain ⟨q, edge, inQ, stays⟩ := settled t stands
    rw [stays]
    exact (stood q edge).closed t inQ
  · rw [kind] at same
    rcases links.2 k same with old | ⟨q, edge, kindQ⟩
    · rw [fresh.kind] at old
      cases old
    · obtain ⟨t, inQ, kindT⟩ := (stood q edge).some k kindQ
      refine ⟨t, (fresh.stands t).mpr ⟨q, edge, inQ⟩, ?_⟩
      rw [closes.ofClosed t ((stood q edge).closed t inQ)]
      exact kindT
  · obtain ⟨q, edge, inQ, stays⟩ := settled t stands
    have walked : id ∈ last.openReach id :=
      mem_openReach.mpr ⟨closed.before.grows.open_iff.mpr wasOpen, .refl⟩
    have apart : q ∉ last.openReach id := by
      intro member
      have status := (ready hub wasOpen.unclosed q edge).closed
      rw [(closed.wasOpen member).unclosed] at status
      cases status
    have first := closed.settled.kind id walked q (closed.grows.more id q edge)
    rw [closed.before.others q apart] at first
    rw [kind, stays]
    exact first.trans ((stood q edge).best t inQ)

theorem Progress.close (prog : Progress base sem g) (ready : Ready base g id) :
    Progress base sem (g.close id) ∧ Closes g (g.close id) id := by
  -- The kind of an open hub is followed through the rounds.
  have rounds : ∃ last h, Closed base sem g last h id ∧ (GainsUseful g last ∧ GainsUseful g h ∧
      (IsHub base g id ∧ (g.state id).isClosed = false → KindFromLinks g id h)) ∧
      g.close id = h.markClosed (last.openReach id) := by
    have start : GainsUseful g g := ⟨fun _ _ => rfl, fun _ _ member => .inl member⟩
    have useful : ∀ {last h : Graph}, Closed base sem g last h id → GainsUseful g h → GainsUseful g last := by
      intro last h closed gains
      refine ⟨fun s status => closed.before.others s fun member => ?_, fun s x member => ?_⟩
      · rw [(closed.wasOpen member).unclosed] at status
        cases status
      · exact gains.2 s x (closed.further.more s x member)
    by_cases hub : IsHub base g id ∧ (g.state id).isClosed = false
    · obtain ⟨last, h, closed, ⟨gains, links⟩, result⟩ := close_closed
        (kindFromLinks_kept prog.toRepresents (ready hub.1 hub.2)) prog.toSound ⟨start, fun _ member => .inl member, fun _ same => .inl same⟩ id
      exact ⟨last, h, closed, ⟨useful closed gains, gains, fun _ => links⟩, result⟩
    · obtain ⟨last, h, closed, gains, result⟩ := close_closed gainsUseful_kept prog.toSound start id
      exact ⟨last, h, closed, ⟨useful closed gains, gains, fun isHub => absurd isHub hub⟩, result⟩
  obtain ⟨last, h, closed, ⟨gainsLast, gains, links⟩, result⟩ := rounds
  have closes := closed.closes
  have rep := closed.represents prog.toRepresents
  have epsilon := closed.marked_epsilon
  have hubs : ∀ x : Nat, IsHub base (h.markClosed (last.openReach id)) x → IsHub base g x := by
    rintro x ⟨beyond, s, goes⟩
    rw [closes.state s] at goes
    exact ⟨beyond, s, goes⟩
  rw [result]
  refine ⟨⟨rep, fun s q member hub => ?_, fun x hub => ?_, fun x hub isOpen => ?_, fun x hub status => ?_⟩, closes⟩
  · have hubQ := hubs q hub
    rw [epsilon] at member
    rcases gains.2 s q member with old | matters
    · obtain ⟨⟨beyond, m, goes⟩, less⟩ := prog.apart s q old hubQ
      exact ⟨⟨beyond, m, by rwa [closes.state m]⟩, less⟩
    · rw [(prog.hub_not_matters hubQ).1] at matters
      cases matters
  · rw [closes.state x]
    exact prog.still x (hubs x hub)
  · have same := closes.ofOpen x isOpen
    rw [same] at isOpen
    have fresh := prog.fresh x (hubs x hub) isOpen
    refine ⟨by rw [same]; exact fresh.next, by rw [same]; exact fresh.final, by rw [same]; exact fresh.unclosed,
      by rw [same]; exact fresh.kind, fun q member => ?_, fun t => by rw [same]; exact fresh.stands t⟩
    rw [same] at member
    obtain ⟨less, original | ⟨beyond, m, goes⟩⟩ := fresh.links q member
    · exact ⟨less, .inl original⟩
    · exact ⟨less, .inr ⟨beyond, m, by rwa [closes.state m]⟩⟩
  · cases before : (g.state x).isClosed with
    | true =>
      have best := prog.best x (hubs x hub) before
      have same := closes.ofClosed x before
      have stays : ∀ t ∈ sem x, (h.markClosed (last.openReach id)).state t = g.state t := fun t stands =>
        closes.ofClosed t (best.closed t stands)
      refine ⟨fun t stands => ?_, fun k kind => ?_, fun t stands => ?_⟩
      · rw [stays t stands]
        exact best.closed t stands
      · rw [same] at kind
        obtain ⟨t, stands, kindT⟩ := best.some k kind
        exact ⟨t, stands, by rwa [stays t stands]⟩
      · rw [same, stays t stands]
        exact best.best t stands
    | false =>
      have walked : x ∈ last.openReach id := by
        by_contra apart
        rw [markClosed_other apart, closed.others x apart, before] at status
        cases status
      obtain rfl := prog.no_other_hub ready closed.before.grows gainsLast walked (hubs x hub)
      exact prog.kinds_of_hub ready closed (links ⟨hubs x hub, before⟩) (hubs x hub) (closed.wasOpen walked)

theorem Progress.merged {ids idsAfter : List Nat} (prog : Progress base sem g)
    (merges : Merges base g sem ids after semAfter idsAfter) : Progress base semAfter after := by
  have ext := merges.ext
  have older : ∀ {h : Nat}, IsHub base after h → h < g.size → IsHub base g h := fun hub inside =>
    merges.hubs.old _ hub inside
  refine ⟨merges.rep, fun s q member hub => ?_, fun h hub => ?_, fun h hub isOpen => ?_, fun h hub status => ?_⟩
  · rcases Nat.lt_or_ge s g.size with inside | beyond
    · rw [ext.state s inside] at member
      obtain ⟨hubS, less⟩ := prog.apart s q member (older hub (prog.target s q member))
      exact ⟨ext.isHub hubS, less⟩
    · by_cases hubS : IsHub base after s
      · exact ⟨hubS, ((merges.hubs.fresh s hubS beyond).links q member).1⟩
      · rw [merges.hubs.bare s beyond hubS] at member
        cases member
  · rcases Nat.lt_or_ge h g.size with inside | beyond
    · rw [ext.state h inside]
      exact prog.still h (older hub inside)
    · have fresh := merges.hubs.fresh h hub beyond
      exact ⟨fresh.next, fresh.final⟩
  · rcases Nat.lt_or_ge h g.size with inside | beyond
    · rw [ext.state h inside] at isOpen
      exact ext.freshHub (prog.fresh h (older hub inside) isOpen) inside
    · exact merges.hubs.fresh h hub beyond
  · rcases Nat.lt_or_ge h g.size with inside | beyond
    · rw [ext.state h inside] at status
      have best := prog.best h (older hub inside) status
      have same : ∀ t ∈ sem h, after.state t = g.state t := fun t stands =>
        ext.state t (lt_of_isClosed (best.closed t stands))
      have standing := ext.standing h inside
      refine ⟨fun t stands => ?_, fun k kind => ?_, fun t stands => ?_⟩
      · rw [standing] at stands
        rw [same t stands]
        exact best.closed t stands
      · rw [ext.state h inside] at kind
        obtain ⟨t, stands, kindT⟩ := best.some k kind
        rw [standing]
        exact ⟨t, stands, by rwa [same t stands]⟩
      · rw [standing] at stands
        rw [ext.state h inside, same t stands]
        exact best.best t stands
    · rw [(merges.hubs.fresh h hub beyond).unclosed] at status
      cases status

/-- The list of a closed state gives way to a list of states with moves. -/
theorem Progress.relisted (prog : Progress base sem g) {useful : List Nat} {count : Nat}
    (status : (g.state id).isClosed = true)
    (rep : Represents base sem (g.alter id fun s => { s with epsilon := useful, keptEpsilon := count }))
    (moves : ∀ m : Nat, m ∈ useful → (g.state m).hasMoves = true) :
    Progress base sem (g.alter id fun s => { s with epsilon := useful, keptEpsilon := count }) := by
  have inside := lt_of_isClosed status
  have same : (g.alter id fun s => { s with epsilon := useful, keptEpsilon := count }).state id =
      { g.state id with epsilon := useful, keptEpsilon := count } := state_alter_same inside
  have other : ∀ s : Nat, s ≠ id →
      (g.alter id fun s => { s with epsilon := useful, keptEpsilon := count }).state s = g.state s := fun s different =>
    state_alter_other different
  generalize (g.alter id fun s => { s with epsilon := useful, keptEpsilon := count }) = after at rep same other
  have state : ∀ s : Nat, after.state s = { g.state s with
      epsilon := (after.state s).epsilon, keptEpsilon := (after.state s).keptEpsilon } := by
    intro s
    by_cases isId : s = id
    · rw [isId, same]
    · rw [other s isId]
  have hubs : ∀ {h : Nat}, IsHub base after h ↔ IsHub base g h := by
    intro h
    refine and_congr_right fun _ => exists_congr fun s => ?_
    rw [state s]
  refine ⟨rep, fun s q member hub => ?_, fun h hub => ?_, fun h hub isOpen => ?_, fun h hub closed => ?_⟩
  · by_cases isId : s = id
    · rw [isId, same] at member
      have noMoves := (prog.hub_not_matters (hubs.mp hub)).2
      rw [moves q member] at noMoves
      cases noMoves
    · rw [other s isId] at member
      obtain ⟨hubS, less⟩ := prog.apart s q member (hubs.mp hub)
      exact ⟨hubs.mpr hubS, less⟩
  · rw [state h]
    exact prog.still h (hubs.mp hub)
  · have different : h ≠ id := by
      rintro rfl
      rw [state h, status] at isOpen
      cases isOpen
    rw [other h different] at isOpen
    obtain ⟨next, final, unclosed, kind, links, stands⟩ := prog.fresh h (hubs.mp hub) isOpen
    rw [← other h different] at next final unclosed kind links stands
    refine ⟨next, final, unclosed, kind, fun q member => ?_, stands⟩
    obtain ⟨less, original | hubQ⟩ := links q member
    · exact ⟨less, .inl original⟩
    · exact ⟨less, .inr (hubs.mpr hubQ)⟩
  · rw [state h] at closed
    have best := prog.best h (hubs.mp hub) closed
    refine ⟨fun t stands => ?_, fun k kind => ?_, fun t stands => ?_⟩
    · rw [state t]
      exact best.closed t stands
    · rw [state h] at kind
      obtain ⟨t, stands, kindT⟩ := best.some k kind
      exact ⟨t, stands, by rw [state t]; exact kindT⟩
    · rw [state h, state t]
      exact best.best t stands

/-- What completing one state comes to. -/
structure Completes (base g : Graph) (sem : Standing) (id : Nat) (after : Graph) (semAfter : Standing) : Prop where
  progress : Progress base semAfter after
  size_le : g.size ≤ after.size
  standing : ∀ s : Nat, s < g.size → semAfter s = sem s
  edges : ∀ s : Nat, s < g.size → (after.state s).moves = (g.state s).moves ∧
    (after.state s).next = (g.state s).next
  kept : ∀ s : Nat, s ≠ id → (g.state s).isClosed = true → after.state s = g.state s
  hubs : ∀ h : Nat, IsHub base after h → h < g.size → IsHub base g h
  done : Done after id

theorem completeState_completes (fresh : Fresh base) (rule : MergeRule) (prog : Progress base sem g)
    (inside : id < g.size) (ready : Ready base g id) :
    ∃ semAfter, Completes base g sem id (completeState rule g id) semAfter := by
  obtain ⟨closedProg, closes⟩ := prog.close ready
  have status := closes.done inside
  obtain ⟨semAfter, merges⟩ := mergeAll_merges fresh rule closedProg.toRepresents (closedProg.target id)
  have mergedProg := closedProg.merged merges
  have short : ∀ n, ((g.close id).state id).next = some n →
      mergeAll rule (g.close id) ((g.close id).state id).epsilon = (g.close id, ((g.close id).state id).epsilon) :=
    fun n goes => mergeAll_short (closedProg.alone id n goes).2
  unfold completeState
  dsimp only
  generalize mergeAll rule (g.close id) ((g.close id).state id).epsilon = result at merges short mergedProg
  obtain ⟨merged, ids⟩ := result
  dsimp only at merges short mergedProg ⊢
  have ext := merges.ext
  have within : id < (g.close id).size := lt_of_isClosed status
  have sameId := ext.state id within
  have statusAfter : (merged.state id).isClosed = true := by rwa [sameId]
  have useful : ∀ m : Nat, m ∈ ids.filter (fun id => (merged.state id).hasMoves) →
      m ∈ ids ∧ (merged.state m).hasMoves = true := fun m member => List.mem_filter.mp member
  have rep := @Represents.relist base merged semAfter id merges.rep
    (ids.filter fun id => (merged.state id).hasMoves) (ids.filter fun id => (merged.state id).hasMoves).length
    statusAfter ?_ ?_ ?_ ?_
  · have final := mergedProg.relisted statusAfter rep fun m member => (useful m member).2
    refine ⟨semAfter, final, ?_, fun s low => ?_, fun s low => ?_, fun s different closed => ?_,
      fun h hub low => ?_, ?_⟩
    · rw [size_alter]
      exact closes.size.symm.le.trans ext.size_le
    · exact ext.standing s (by rwa [closes.size])
    · have low' : s < (g.close id).size := by rwa [closes.size]
      rw [state_alter]
      split
      · rename_i here
        rw [here.1, sameId, closes.state id]
        exact ⟨rfl, rfl⟩
      · rw [ext.state s low', closes.state s]
        exact ⟨rfl, rfl⟩
    · have low : s < (g.close id).size := by
        rw [closes.size]
        exact lt_of_isClosed closed
      rw [state_alter_other different, ext.state s low, closes.ofClosed s closed]
    · obtain ⟨beyond, s, goes⟩ := hub
      have goesMerged : (merged.state s).next = some h := by
        rw [state_alter] at goes
        split at goes
        · rename_i here
          rw [here.1]
          exact goes
        · exact goes
      obtain ⟨_, m, goesM⟩ := merges.hubs.old h ⟨beyond, s, goesMerged⟩ (by rwa [closes.size])
      rw [closes.state m] at goesM
      exact ⟨beyond, m, goesM⟩
    · have here : id < merged.size := within.trans_le ext.size_le
      constructor
      · rw [state_alter_same here]
        exact statusAfter
      · intro q member
        rw [state_alter_same here] at member
        have moves := (useful q member).2
        rw [state_alter]
        split
        · rename_i atId
          rw [← atId.1]
          exact moves
        · exact moves
      · rw [state_alter_same here]
  · exact fun m member => merges.inside m (useful m member).1
  · intro m member
    refine merges.within (fun u => ∃ v ∈ semAfter id, Silent base v u) ?_ ?_ m (useful m member).1
    · rintro u w ⟨v, stands, path⟩ further
      exact ⟨v, stands, path.trans further⟩
    · intro q edge t stands
      rw [ext.standing id within]
      exact closedProg.behind id q edge t stands
  · intro n goes
    rw [sameId] at goes
    obtain ⟨rfl, rfl⟩ := Prod.mk.inj (short n goes)
    rcases (closedProg.alone id n goes).2 with bare | single
    · rw [bare]
      exact .inl rfl
    · rw [single, List.filter_singleton]
      cases ((g.close id).state id).hasMoves with
      | true => exact .inr rfl
      | false => exact .inl rfl
  · intro code t gets
    rw [ext.getsAny within] at gets
    obtain ⟨m, member, moves⟩ := (merges.reads code t).mpr (closedProg.complete id status code t gets)
    exact ⟨m, List.mem_filter.mpr ⟨member, moves.hasMoves (merges.rep.valid m)⟩, moves⟩

/-! ### No new hubs -/

theorem foldl_merge_next {s : State} {more : List Nat} :
    (more.foldl (fun s id => s.merge (g.state id)) s).next = s.next := by
  induction more generalizing s with
  | nil => rfl
  | cons m rest ih => exact ih

/-- States of one next state are merged into a state that goes where they go. -/
theorem mergeCommonNext_next {kept todo : List Nat} {s n : Nat}
    (goes : ((g.mergeCommonNext kept todo).1.state s).next = some n) : ∃ m : Nat, (g.state m).next = some n := by
  generalize bound : todo.length = count
  induction count using Nat.strongRecOn generalizing g kept todo with
  | ind count ih =>
    cases todo with
    | nil =>
      rw [mergeCommonNext] at goes
      exact ⟨s, goes⟩
    | cons first rest =>
      rw [mergeCommonNext] at goes
      split at goes
      · exact ih rest.length (by rw [← bound]; exact Nat.lt_succ_self _) goes rfl
      · rename_i same more others split
        have shorter := length_lt_of_partition split
        obtain ⟨m, before⟩ := ih (others ++ [g.size]).length
          (by rw [← bound, List.length_append]; exact Nat.succ_lt_succ shorter) goes rfl
        rw [state_addState] at before
        split at before
        · rw [foldl_merge_next] at before
          exact ⟨first, before⟩
        · exact ⟨m, before⟩

theorem mergeAll_next {rule : MergeRule} (onlyNext : rule.equalMoves = false) {ids : List Nat} {s n : Nat}
    (goes : ((mergeAll rule g ids).1.state s).next = some n) : ∃ m : Nat, (g.state m).next = some n := by
  have once : ∀ {g : Graph} {ids : List Nat} {s : Nat}, ((mergeOnce rule g ids).1.state s).next = some n →
      ∃ m : Nat, (g.state m).next = some n := by
    intro g ids s goes
    unfold mergeOnce at goes
    rw [onlyNext, if_neg Bool.false_ne_true] at goes
    dsimp only at goes
    split at goes
    · exact mergeCommonNext_next goes
    · exact ⟨s, goes⟩
  generalize bound : ids.length = count
  induction count using Nat.strongRecOn generalizing g ids s with
  | ind count ih =>
    rw [mergeAll_eq] at goes
    split at goes
    · rename_i shorter
      obtain ⟨m, before⟩ := ih _ (bound ▸ shorter) goes rfl
      exact once before
    · exact once goes

theorem completeState_isHub {rule : MergeRule} (onlyNext : rule.equalMoves = false) (closes : Closes g (g.close id) id)
    {h : Nat} (hub : IsHub base (completeState rule g id) h) : IsHub base g h := by
  obtain ⟨beyond, s, goes⟩ := hub
  have merged : ∃ m : Nat, ((mergeAll rule (g.close id) ((g.close id).state id).epsilon).1.state m).next = some h := by
    unfold completeState at goes
    dsimp only at goes
    rw [state_alter] at goes
    split at goes
    · exact ⟨id, goes⟩
    · exact ⟨s, goes⟩
  obtain ⟨m, goesM⟩ := merged
  obtain ⟨q, goesQ⟩ := mergeAll_next onlyNext goesM
  rw [closes.state q] at goesQ
  exact ⟨beyond, q, goesQ⟩

/-! ### All states -/

theorem Completes.keeps (completes : Completes base g sem id after semAfter) (rep : Represents base sem g) {s : Nat}
    (done : Done g s) : Done after s := by
  by_cases here : s = id
  · rw [here]
    exact completes.done
  have same := completes.kept s here done.closed
  refine ⟨by rw [same]; exact done.closed, fun q member => ?_, by rw [same]; exact done.count⟩
  rw [same] at member
  have moves := done.useful q member
  unfold State.hasMoves at moves ⊢
  rwa [(completes.edges q (rep.target s q member)).1]

/-- The original states from `first` on are completed, the last made first. -/
theorem completeOriginals (fresh : Fresh base) (rule : MergeRule) (first count : Nat) (le : first + count ≤ base.size)
    (prog : Progress base sem g) (done : ∀ s : Nat, first + count ≤ s → s < base.size → Done g s) :
    ∃ semAfter, Progress base semAfter ((List.range' first count).reverse.foldl (completeState rule) g) ∧
      ∀ s : Nat, first ≤ s → s < base.size → Done ((List.range' first count).reverse.foldl (completeState rule) g) s := by
  induction count generalizing g sem with
  | zero => exact ⟨sem, prog, done⟩
  | succ count ih =>
    rw [reverse_range'_succ, List.foldl_cons]
    have original : ¬ IsHub base g (first + count) := fun hub => absurd hub.1 (by omega)
    have larger := prog.size_le
    obtain ⟨semNext, completes⟩ := completeState_completes fresh rule prog (by omega : first + count < g.size)
      fun hub => absurd hub original
    refine ih (by omega) completes.progress fun s low high => ?_
    rcases Nat.eq_or_lt_of_le low with rfl | later
    · exact completes.done
    · exact completes.keeps prog.toRepresents (done s (by omega) high)

/-- The states that merging made are completed in the order in which they were made. -/
theorem completeMerged (fresh : Fresh base) {rule : MergeRule} (onlyNext : rule.equalMoves = false) {first count : Nat}
    (prog : Progress base sem g) (whole : first + count ≤ g.size) (done : ∀ s : Nat, s < first → Done g s)
    (hubs : ∀ h, IsHub base g h → h < first + count) :
    ∃ semAfter, Progress base semAfter ((List.range' first count).foldl (completeState rule) g) ∧
      (∀ s : Nat, s < first + count → Done ((List.range' first count).foldl (completeState rule) g) s) ∧
      (∀ h, IsHub base ((List.range' first count).foldl (completeState rule) g) h → h < first + count) ∧
      ∀ s : Nat, s < first → ((List.range' first count).foldl (completeState rule) g).state s = g.state s := by
  induction count generalizing first g sem with
  | zero => exact ⟨sem, prog, done, hubs, fun _ _ => rfl⟩
  | succ count ih =>
    rw [List.range'_succ, List.foldl_cons]
    have ready : Ready base g first := fun hub isOpen q member =>
      done q ((prog.fresh first hub isOpen).links q member).1
    obtain ⟨semNext, completes⟩ := completeState_completes fresh rule prog (by omega : first < g.size) ready
    have grown := completes.size_le
    have same : first + 1 + count = first + (count + 1) := by omega
    have step := @ih (completeState rule g first) semNext (first + 1) completes.progress (by omega) (fun s low => ?_)
      fun h hub => same ▸ hubs h (completeState_isHub onlyNext (prog.close ready).2 hub)
    · rw [same] at step
      obtain ⟨semLast, last, allDone, allHubs, stays⟩ := step
      refine ⟨semLast, last, allDone, allHubs, fun s low => ?_⟩
      exact (stays s (by omega)).trans (completes.kept s (by omega) (done s low).closed)
    · rcases Nat.lt_succ_iff_lt_or_eq.mp low with earlier | rfl
      · exact completes.keeps prog.toRepresents (done s earlier)
      · exact completes.done

/-- A closed graph means what the built graph means, and every state that is entered is complete. -/
structure Completed (base : Graph) (sem : Standing) (g : Graph) : Prop extends Represents base sem g where
  done : ∀ s : Nat, s < base.size → Done g s
  entered : ∀ s n : Nat, (g.state s).next = some n → Done g n
  best : ∀ s n : Nat, (g.state s).next = some n → BestKind g sem n

/-- The graph when every original state has been completed. -/
def completeFirst (g : Graph) (mode : Closing) : Graph :=
  (List.range g.size).reverse.foldl (completeState ⟨mode == .merging, mode == .merging⟩) g

/-- Closing the states that merging made leaves the original states as they are. -/
theorem completeAll_completes (fresh : Fresh base) (mode : Closing) :
    (∃ sem, Completed base sem (base.completeAll mode)) ∧
      ∀ s : Nat, s < base.size → (base.completeAll mode).state s = (base.completeFirst mode).state s := by
  unfold completeAll completeFirst
  dsimp only
  generalize (mode == Closing.merging) = merging
  obtain ⟨semFirst, prog, done⟩ := completeOriginals fresh ⟨merging, merging⟩ 0 base.size (Nat.zero_add _).le
    fresh.progress fun s low high => absurd low (by omega)
  rw [← List.range_eq_range'] at prog done
  generalize (List.range base.size).reverse.foldl (completeState ⟨merging, merging⟩) base = closed at prog done
  have larger := prog.size_le
  have whole : base.size + (closed.size - base.size) = closed.size := by omega
  obtain ⟨sem, last, allDone, hubs, stays⟩ := @completeMerged _ _ _ fresh ⟨false, merging⟩ rfl base.size
    (closed.size - base.size) prog whole.le (fun s => done s (Nat.zero_le s)) fun h hub => whole.symm ▸ hub.inside prog.toRepresents
  refine ⟨⟨sem, last.toRepresents, fun s inside => allDone s (by omega), fun s n goes => ?_, fun s n goes => ?_⟩, stays⟩
  · rcases Nat.lt_or_ge n base.size with original | merged
    · exact allDone n (by omega)
    · exact allDone n (hubs n ⟨merged, s, goes⟩)
  · rcases Nat.lt_or_ge n base.size with original | merged
    · exact last.toRepresents.bestKind_self original (allDone n (by omega)).closed
    · have hub : IsHub base _ n := ⟨merged, s, goes⟩
      exact last.best n hub (allDone n (hubs n hub)).closed

theorem completeAll_completed (fresh : Fresh base) (mode : Closing) :
    ∃ sem, Completed base sem (base.completeAll mode) := (completeAll_completes fresh mode).1

end TokenTables.Automaton.Graph
