import TokenTables.Proofs.Automaton.Sources

/-!
Closing where something that matters lies at the gate or behind it. The rounds go on until it has come to every state
of the circle that leads to the gate, and the kinds come with it: every state gets its best source.
-/

namespace TokenTables.Automaton.Graph

open Kind (NoLater IsBest)

/-- A state of a graph of rules that is about to be closed, and its gateway. -/
structure AtGate (base : Graph) (sem : Standing) (g : Graph) (id gate : Nat) (inner outer : Set Nat) : Prop where
  fresh : Fresh base
  rep : Represents base sem g
  tidy : Tidy base g (id + 1)
  gateway : Gateway base id gate inner outer
  inside : id < base.size

variable {base g h last : Graph} {sem : Standing} {id gate : Nat} {inner outer left : Set Nat}

theorem AtGate.reached (atGate : AtGate base sem g id gate inner outer) {s : Nat} (member : s ∈ g.openReach id) :
    s < base.size ∧ (g.state s).isClosed = false := by
  obtain ⟨isOpen, path⟩ := mem_openReach.mp member
  exact ⟨(atGate.rep.openPath atGate.fresh path atGate.inside isOpen.unclosed).2, (open_of_mem_openReach member).unclosed⟩

theorem AtGate.not_behind (atGate : AtGate base sem g id gate inner outer) {s : Nat} (inside : s < base.size)
    (unclosed : (g.state s).isClosed = false) : s ∉ base.BehindFrom (id + 1) := by
  rw [← atGate.tidy.closed s inside, unclosed]
  exact Bool.false_ne_true

/-- An open state behind a state of the walk is on the walk. -/
theorem AtGate.next (atGate : AtGate base sem g id gate inner outer) {s t : Nat} (member : s ∈ g.openReach id)
    (edge : t ∈ (g.state s).epsilon) (unclosed : (g.state t).isClosed = false) : t ∈ g.openReach id := by
  obtain ⟨isOpen, path⟩ := mem_openReach.mp member
  exact mem_openReach.mpr ⟨isOpen, path.tail ⟨edge, atGate.rep.target s t edge, unclosed⟩⟩

/-- Where an edge of an inner state leads. -/
theorem AtGate.innerEdge (atGate : AtGate base sem g id gate inner outer) {s t : Nat} (member : s ∈ g.openReach id)
    (inInner : s ∈ inner) (edge : t ∈ (g.state s).epsilon) : (t ∈ inner ∧ t ∈ g.openReach id) ∨ t = gate := by
  obtain ⟨inside, unclosed⟩ := atGate.reached member
  obtain ⟨baseEdge, insideT⟩ := atGate.rep.openEdge atGate.fresh inside unclosed edge
  refine (atGate.gateway.innerEdge s inInner t baseEdge).imp_left fun inT => ⟨inT, atGate.next member edge ?_⟩
  rw [Bool.eq_false_iff]
  intro closed
  exact atGate.gateway.innerOpen t inT ((atGate.tidy.closed t insideT).mp closed)

/-- What is known of kinds from behind the gate. An inner state that has anything from there in its list has the kinds
from there as well; those of `left` have absorbed already. -/
structure Tracked (g : Graph) (id gate : Nat) (inner outer left : Set Nat) (h : Graph) : Prop where
  outer : ∀ s ∈ g.openReach id, s ∈ left → s ∈ outer → Finds g s (h.state s).kind
  carried : ∀ s ∈ g.openReach id, s ∈ inner → ∀ y ∈ (h.state s).epsilon, (g.state y).matters = true → y ∉ inner →
    y ≠ gate → Finds g gate (h.state s).kind
  linked : ∀ s ∈ g.openReach id, s ∈ left → s ∈ inner → gate ∈ (g.state s).epsilon → Finds g gate (h.state s).kind

theorem Tracked.mono {fewer : Set Nat} (tracked : Tracked g id gate inner outer left h) (sub : fewer ⊆ left) :
    Tracked g id gate inner outer fewer h where
  outer s reached member := tracked.outer s reached (sub member)
  carried := tracked.carried
  linked s reached member := tracked.linked s reached (sub member)

theorem AtGate.tracked_start (atGate : AtGate base sem g id gate inner outer) :
    Tracked g id gate inner outer ∅ g where
  outer s _ none := none.elim
  carried s member inInner y edge _ notInner notGate := by
    rcases atGate.innerEdge member inInner edge with ⟨inY, _⟩ | same
    · exact absurd inY notInner
    · exact absurd same notGate
  linked s _ none := none.elim

/-- The kind of a state behind `s` has been found when `s` absorbs it. -/
theorem Tracked.behind (tracked : Tracked g id gate inner outer left h)
    (atGate : AtGate base sem g id gate inner outer) (gained : Gained base g h) {s t : Nat}
    (member : s ∈ g.openReach id) (edge : t ∈ (g.state s).epsilon)
    (next : ∀ t, OpenEdge g s t → t ∈ left ∨ OpenPath g t s)
    (forward : (g.state t).isClosed = false → t ∈ outer ∧ (t < s ∨ s ∈ inner)) : Finds g t (h.state t).kind := by
  obtain ⟨inside, unclosed⟩ := atGate.reached member
  cases status : (g.state t).isClosed with
  | true =>
    intro k source
    rw [gained.closed t status, source.ofClosed status]
    exact .refl _
  | false =>
    have inReach := atGate.next member edge status
    obtain ⟨inOuter, ahead⟩ := forward status
    refine tracked.outer t inReach ?_ inOuter
    rcases next t ⟨edge, atGate.rep.target s t edge, status⟩ with done | back
    · exact done
    -- A path back would lead from the outer states up again or to the inner ones.
    have silent := (atGate.rep.openPath atGate.fresh back (atGate.reached inReach).1 status).1
    rcases atGate.gateway.behind_outer silent inOuter with behind | ⟨outerS, le⟩
    · exact absurd behind (atGate.not_behind inside unclosed)
    · rcases ahead with lower | inInner
      · omega
      · exact absurd inInner (atGate.gateway.apart s outerS)

theorem Tracked.absorb (tracked : Tracked g id gate inner outer left h) (atGate : AtGate base sem g id gate inner outer)
    (gained : Gained base g h) (grows : Grows g h) (sound : Sound base sem h) {s : Nat} (isOpen : Open h s)
    (next : s ∈ g.openReach id → ∀ t, OpenEdge g s t → t ∈ left ∨ OpenPath g t s) :
    Tracked g id gate inner outer (insert s left) (h.absorb s).1 := by
  have gainedAfter := gained_kept atGate.fresh atGate.rep atGate.tidy h s grows sound isOpen gained
  have same := absorb_state_same isOpen.inside
  have better := @absorb_grows h s
  -- What `s` takes over from a member of its list.
  have takes : ∀ t : Nat, t ∈ (g.state s).epsilon → ∀ u : Nat, Finds g u (h.state t).kind →
      Finds g u ((h.absorb s).1.state s).kind := by
    intro t edge u finds
    refine finds.mono ?_
    rw [same]
    exact absorbed_visits sound.target (grows.more s t edge)
  have toGate : s ∈ g.openReach id → s ∈ inner → gate ∈ (g.state s).epsilon → Finds g gate (h.state gate).kind :=
    fun member inInner edge => tracked.behind atGate gained member edge (next member) fun _ =>
      ⟨atGate.gateway.gateOuter, .inr inInner⟩
  refine ⟨fun t member done inOuter => ?_, fun t member inInner y edge matters notInner notGate => ?_,
    fun t member done inInner edge => ?_⟩
  all_goals by_cases here : t = s
  · subst here
    obtain ⟨inside, unclosed⟩ := atGate.reached member
    intro k source
    cases source with
    | here kind =>
      rw [← kind]
      exact (better.better t).trans (grows.better t)
    | @step _ q _ edge after =>
      obtain ⟨baseEdge, insideQ⟩ := atGate.rep.openEdge atGate.fresh inside unclosed edge
      refine takes q edge q (tracked.behind atGate gained member edge (next member) fun status => ?_) k after
      rcases atGate.gateway.outerEdge t inOuter (fun none => nomatch none) q baseEdge with behind | ⟨outerQ, lower⟩
      · exact absurd behind (atGate.not_behind insideQ status)
      · exact ⟨outerQ, .inl lower⟩
  · rw [absorb_state_other here]
    exact tracked.outer t member (done.resolve_left here) inOuter
  · subst here
    obtain ⟨inside, unclosed⟩ := atGate.reached member
    have listed := edge
    rw [same] at listed
    rcases mem_absorbedList.mp listed with found | ⟨_, rfl⟩
    · rcases gather_from found with old | ⟨q, inList, different, edgeQ, noLater⟩
      · exact (tracked.carried t member inInner y old matters notInner notGate).mono (better.better t)
      · have takesQ : Finds g gate (h.state q).kind → Finds g gate ((h.absorb t).1.state t).kind := by
          intro finds
          rw [same]
          exact finds.mono noLater
        have gain : Gain base g t q := by
          refine gainedAfter.list t inside unclosed q ?_
          rw [same]
          exact mem_absorbedList.mpr (.inl inList)
        rcases gain with link | ⟨_, moves | ⟨original, isFinal, _⟩⟩
        · rcases atGate.innerEdge member inInner link with ⟨innerQ, reachedQ⟩ | rfl
          · exact takesQ (tracked.carried q reachedQ innerQ y edgeQ matters notInner notGate)
          · exact takesQ (toGate member inInner link)
        · obtain ⟨n, goes⟩ := next_of_hasMoves (atGate.rep.idle q) moves
          rcases (sound.alone q n (by rwa [grows.next])).2 with bare | single
          · rw [bare] at edgeQ
            cases edgeQ
          · rw [single] at edgeQ
            exact absurd (List.mem_singleton.mp edgeQ).symm different
        · rw [gained.final q original isFinal, (atGate.tidy.final q original isFinal).1] at edgeQ
          cases edgeQ
    · exact absurd inInner notInner
  · rw [absorb_state_other here] at edge ⊢
    exact tracked.carried t member inInner y edge matters notInner notGate
  · subst here
    exact takes gate edge gate (toGate member inInner edge)
  · rw [absorb_state_other here]
    exact tracked.linked t member (done.resolve_left here) inInner edge

/-- A graph in the course of closing `id`, after the first round. -/
def Settling (base g : Graph) (id gate : Nat) (inner outer : Set Nat) (h : Graph) : Prop :=
  Gained base g h ∧ Tracked g id gate inner outer {s | s ∈ g.openReach id} h

theorem AtGate.settling_kept (atGate : AtGate base sem g id gate inner outer) :
    Kept base sem g (Settling base g id gate inner outer) := by
  rintro h s grows sound isOpen ⟨gained, tracked⟩
  refine ⟨gained_kept atGate.fresh atGate.rep atGate.tidy h s grows sound isOpen gained, ?_⟩
  refine (tracked.absorb atGate gained grows sound isOpen fun member t edge => .inl ?_).mono (Set.subset_insert s _)
  exact atGate.next member edge.1 edge.2.unclosed

theorem AtGate.settling_first (atGate : AtGate base sem g id gate inner outer) :
    Settling base g id gate inner outer (g.absorbAll (g.openReach id)).1 := by
  refine @absorbAll_inOrder base g sem id
    (fun h left => Gained base g h ∧ Tracked g id gate inner outer left h) atGate.rep.toSound ?_
    ⟨.start base g, atGate.tracked_start⟩
  rintro h s left grows sound isOpen next ⟨gained, tracked⟩
  exact ⟨gained_kept atGate.fresh atGate.rep atGate.tidy h s grows sound isOpen gained,
    tracked.absorb atGate gained grows sound isOpen fun _ => next⟩

/-- Closing, with what is known of the kinds. -/
theorem AtGate.close (atGate : AtGate base sem g id gate inner outer) :
    ∃ last h, Closed base sem g last h id ∧ Settling base g id gate inner outer h ∧ Gained base g last ∧
      (last = g ∨ Settling base g id gate inner outer last) ∧ g.close id = h.markClosed (last.openReach id) := by
  obtain ⟨last, h, closed, settling, before, result⟩ :=
    close_afterFirst atGate.settling_kept atGate.rep.toSound id atGate.settling_first
  refine ⟨last, h, closed, settling, ?_, before, result⟩
  rcases before with rfl | ⟨gained, _⟩
  · exact .start base last
  · exact gained

/-! ### What has come to an inner state -/

/-- A source of an inner state is one of the gate, and what lies at the gate has come to the state. -/
theorem AtGate.from_gate (atGate : AtGate base sem g id gate inner outer) (closed : Closed base sem g last h id)
    {s : Nat} {k : Kind} (source : Source g k s) (member : s ∈ g.openReach id) (inInner : s ∈ inner) :
    Source g k gate ∧ ((g.state gate).isClosed = false → gate ∈ g.openReach id) ∧
      ((g.state gate).matters = true → gate ∈ (h.state s).epsilon) ∧
      ∀ y ∈ (h.state gate).epsilon, (g.state y).matters = true → y ∈ (h.state s).epsilon := by
  induction source with
  | @here s kind =>
    obtain ⟨inside, unclosed⟩ := atGate.reached member
    rw [atGate.rep.untouched s inside unclosed] at kind
    have isFinal := atGate.fresh.kind s k kind
    rw [atGate.gateway.notFinal s inInner] at isFinal
    cases isFinal
  | @step s t _ edge after ih =>
    have inList := closed.grows.more s t edge
    have walked := closed.before.grows.openReach member
    have pulls : ∀ y ∈ (h.state t).epsilon, (g.state y).matters = true → y ∈ (h.state s).epsilon :=
      fun y inT matters => closed.settled.behind s walked t inList y inT (by rwa [closed.before.grows.matters])
    rcases atGate.innerEdge member inInner edge with ⟨innerT, reachedT⟩ | rfl
    · obtain ⟨fromGate, open_, atT, all⟩ := ih reachedT innerT
      exact ⟨fromGate, open_, fun matters => pulls gate (atT matters) matters,
        fun y inGate matters => pulls y (all y inGate matters) matters⟩
    · exact ⟨after, atGate.next member edge, fun _ => inList, pulls⟩

theorem AtGate.carried_apart (atGate : AtGate base sem g id gate inner outer) (sound : Sound base sem h) {y : Nat}
    (gateInside : gate < base.size) (edge : y ∈ (h.state gate).epsilon) : y ∉ inner := by
  intro inInner
  have original := atGate.gateway.inside y (.inl inInner)
  have silent : Silent base gate y := by
    obtain ⟨u, stands, path⟩ := sound.behind gate y edge y (by rw [atGate.rep.self y original]; rfl)
    rw [atGate.rep.self gate gateInside] at stands
    obtain rfl : u = gate := stands
    exact path
  rcases atGate.gateway.behind_outer silent atGate.gateway.gateOuter with behind | ⟨inOuter, _⟩
  · exact atGate.gateway.innerOpen y inInner behind
  · exact atGate.gateway.apart y inOuter inInner

/-- If something that matters lies at the gate, every walked state gets the best of its sources. -/
theorem AtGate.close_finds (atGate : AtGate base sem g id gate inner outer) (gateInside : gate < base.size)
    (bears : (g.state gate).matters = true ∨ Bears g gate) {s : Nat} (member : s ∈ g.openReach id)
    (place : s ∈ inner ∨ s ∈ outer) :
    IsBest ((g.close id).state s).kind fun kind => ∃ k, kind = some k ∧ Source g k s := by
  obtain ⟨last, h, closed, ⟨gained, tracked⟩, _, before, result⟩ := atGate.close
  obtain ⟨inside, unclosed⟩ := atGate.reached member
  rw [result, closed.marked_kind]
  have finds : Finds g s (h.state s).kind := by
    rcases place with inInner | inOuter
    · intro k source
      obtain ⟨fromGate, openGate, atGateItself, all⟩ := atGate.from_gate closed source member inInner
      by_cases matters : (g.state gate).matters = true
      · have inList := atGateItself matters
        have inLast : gate ∈ (last.state s).epsilon := by
          rcases closed.settled.old s gate inList with old | rfl
          · exact old
          · exact absurd inInner (atGate.gateway.apart gate atGate.gateway.gateOuter)
        rcases before with rfl | ⟨gainedLast, trackedLast⟩
        · exact tracked.linked s member member inInner inLast k fromGate
        · have walked := closed.before.grows.openReach member
          refine (closed.settled.kind s walked gate inList).trans ?_
          cases status : (g.state gate).isClosed with
          | true =>
            rw [gainedLast.closed gate status, fromGate.ofClosed status]
            exact .refl _
          | false =>
            exact trackedLast.outer gate (openGate status) (openGate status) atGate.gateway.gateOuter k fromGate
      · obtain ⟨y, inGate, mattersY⟩ : ∃ y ∈ (h.state gate).epsilon, (g.state y).matters = true := by
          have bearsGate := bears.resolve_left matters
          cases status : (g.state gate).isClosed with
          | true =>
            rw [gained.closed gate status]
            rcases bearsGate.ofClosed status with moves | carries
            · exact absurd (by unfold State.matters; rw [moves, Bool.or_true]) matters
            · exact carries
          | false => exact closed.carries atGate.rep bearsGate (closed.before.grows.openReach (openGate status))
        refine tracked.carried s member inInner y (all y inGate mattersY) mattersY
          (atGate.carried_apart closed.sound gateInside inGate) ?_ k fromGate
        rintro rfl
        exact matters mattersY
    · exact tracked.outer s member member inOuter
  refine ⟨fun k same => ⟨k, rfl, ?_⟩, ?_⟩
  · obtain ⟨best, le, source⟩ := gained.kind s inside unclosed k same
    obtain ⟨other, le', same'⟩ := finds best source best rfl
    obtain rfl := Option.some.inj (same.symm.trans same')
    obtain rfl := Nat.le_antisymm le le'
    exact source
  · rintro _ ⟨k, rfl, source⟩
    exact finds k source

end TokenTables.Automaton.Graph
