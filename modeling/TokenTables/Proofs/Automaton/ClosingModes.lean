import Mathlib
import TokenTables.Proofs.Automaton.KindsFound
import TokenTables.Proofs.Automaton.Lockstep
import TokenTables.Proofs.Automaton.Run

/-!
Closing with and without merging. Merged states change what the lists hold and so when the rounds end, but not the
kinds that the original states come to: a run of either graph reports the same kinds and dies at the same place.
-/

namespace TokenTables.Automaton.Graph

open Kind (IsBest NoLater)

variable {base g h last : Graph} {sem semOther : Standing} {id gate : Nat} {inner outer : Set Nat}

/-! ### What closing one state does to the original states -/

theorem BehindFrom.mono {first later : Nat} (le : first ≤ later) {s : Nat} (behind : s ∈ base.BehindFrom later) :
    s ∈ base.BehindFrom first := by
  obtain ⟨j, above, inside, path⟩ := behind
  exact ⟨j, le.trans above, inside, path⟩

/-- A path of the built graph to an open state leads through open states only. -/
theorem Tidy.openPath {first : Nat} (tidy : Tidy base g first) (rep : Represents base sem g) {s t : Nat}
    (path : Silent base s t) (inside : t < base.size) (unclosed : (g.state t).isClosed = false) :
    Open g s ∧ OpenPath g s t := by
  induction path with
  | refl => exact ⟨⟨inside.trans_le rep.size_le, unclosed⟩, .refl⟩
  | @tail q t path edge ih =>
    have insideQ := lt_size_of_mem_epsilon edge
    have unclosedQ : (g.state q).isClosed = false := by
      rw [Bool.eq_false_iff]
      intro status
      have behind := BehindFrom.step ((tidy.closed q insideQ).mp status) edge
      rw [← tidy.closed t inside, unclosed] at behind
      cases behind
    obtain ⟨isOpen, before⟩ := ih insideQ unclosedQ
    refine ⟨isOpen, before.tail ⟨?_, inside.trans_le rep.size_le, unclosed⟩⟩
    rwa [rep.untouched q insideQ unclosedQ]

theorem Closed.silent (closed : Closed base sem g last h id) (rep : Represents base sem g) (idInside : id < base.size)
    {s : Nat} (inside : s < base.size) (walked : s ∈ last.openReach id) : Silent base id s := by
  have behind : Behind base sem id s := by
    have path := (mem_openReach.mp walked).2
    clear walked inside
    induction path with
    | refl => exact .refl id
    | tail _ edge ih => exact ih.trans (closed.before.sound.behind _ _ edge.1)
  obtain ⟨u, stands, path⟩ := behind s (by rw [rep.self s inside]; rfl)
  rw [rep.self id idInside] at stands
  obtain rfl : u = id := stands
  exact path

/-- The original states that the last round walks are those that the first one does. -/
theorem Closed.walked (closed : Closed base sem g last h id) (rep : Represents base sem g)
    (tidy : Tidy base g (id + 1)) (idInside : id < base.size) {s : Nat} (inside : s < base.size)
    (walked : s ∈ last.openReach id) : s ∈ g.openReach id :=
  mem_openReach.mpr (tidy.openPath rep (closed.silent rep idInside inside walked) inside (closed.wasOpen walked).unclosed)

/-- Closing, with what the lists and kinds may have gained. -/
theorem close_gained (fresh : Fresh base) (rep : Represents base sem g) (tidy : Tidy base g (id + 1)) :
    ∃ last h, Closed base sem g last h id ∧ Gained base g h ∧ Gained base g last ∧
      g.close id = h.markClosed (last.openReach id) := by
  have kept := gained_kept fresh rep tidy
  obtain ⟨last, h, closed, gained, before, result⟩ := close_afterFirst kept rep.toSound id
    (absorbAll_kept kept (.refl g) rep.toSound (fun s => open_of_mem_openReach) (.start base g))
  refine ⟨last, h, closed, gained, ?_, result⟩
  rcases before with rfl | gainedLast
  · exact .start base last
  · exact gainedLast

theorem Closes.matters {after : Graph} (closes : Closes g after id) (s : Nat) :
    (after.state s).matters = (g.state s).matters := by
  rw [closes.state s]
  rfl

theorem Closes.hasMoves {after : Graph} (closes : Closes g after id) (s : Nat) :
    (after.state s).hasMoves = (g.state s).hasMoves := by
  rw [closes.state s]
  rfl

theorem Closes.isFinal {after : Graph} (closes : Closes g after id) (s : Nat) :
    (after.state s).isFinal = (g.state s).isFinal := by
  rw [closes.state s]

theorem Represents.not_final (rep : Represents base sem g) {s : Nat} (moves : (g.state s).hasMoves = true) :
    (g.state s).isFinal = false := by
  obtain ⟨n, goes⟩ := next_of_hasMoves (rep.idle s) moves
  exact (rep.next s n goes).2.2

theorem Tidy.close (tidy : Tidy base g (id + 1)) (fresh : Fresh base) (rep : Represents base sem g)
    (idInside : id < base.size) : Tidy base (g.close id) id := by
  obtain ⟨last, h, closed, gained, gainedLast, result⟩ := close_gained fresh rep tidy
  have closes := closed.closes
  have epsilon := closed.marked_epsilon
  have kind := closed.marked_kind
  have marked : ∀ s : Nat, s ∈ last.openReach id →
      ((h.markClosed (last.openReach id)).state s).isClosed = true := fun s walked => by
    rw [markClosed_same walked (closed.inside walked)]
  have unwalked : ∀ s : Nat, s ∉ last.openReach id → (h.markClosed (last.openReach id)).state s = g.state s :=
    fun s apart => (markClosed_other apart).trans (closed.others s apart)
  rw [result]
  generalize h.markClosed (last.openReach id) = after at closes epsilon kind marked unwalked
  -- The kind of a final state is never changed.
  have original : ∀ s, s < base.size → ∀ f ∈ (h.state s).epsilon, (g.state s).isClosed = false →
      (g.state f).isFinal = true → f < base.size := by
    intro s inside f edge unclosed isFinal
    rcases gained.list s inside unclosed f edge with link | ⟨_, moves | ⟨original, _⟩⟩
    · exact (rep.openEdge fresh inside unclosed link).2
    · rw [rep.not_final moves] at isFinal
      cases isFinal
    · exact original
  refine ⟨fun s inside => ⟨fun status => ?_, fun behind => ?_⟩, fun f inside isFinal => ?_,
    fun s inside status f edge isFinal => ?_, fun s inside x edge beyond => ?_⟩
  · cases before : (g.state s).isClosed with
    | true => exact BehindFrom.mono (Nat.le_succ id) ((tidy.closed s inside).mp before)
    | false =>
      have walked : s ∈ last.openReach id := by
        by_contra apart
        rw [unwalked s apart, before] at status
        cases status
      exact ⟨id, Nat.le_refl id, idInside, closed.silent rep idInside inside walked⟩
  · cases before : (g.state s).isClosed with
    | true =>
      rw [closes.ofClosed s before]
      exact before
    | false =>
      obtain ⟨j, le, insideJ, path⟩ := behind
      rcases Nat.eq_or_lt_of_le le with rfl | later
      · exact marked s (closed.before.grows.openReach (mem_openReach.mpr (tidy.openPath rep path inside before)))
      · have closedBefore := (tidy.closed s inside).mpr ⟨j, later, insideJ, path⟩
        rw [before] at closedBefore
        cases closedBefore
  · rw [closes.isFinal] at isFinal
    obtain ⟨bare, still⟩ := tidy.final f inside isFinal
    rw [closes.hasMoves, epsilon, gained.final f inside isFinal]
    exact ⟨bare, still⟩
  · rw [closes.isFinal] at isFinal
    rw [epsilon] at edge
    rw [kind, kind]
    cases before : (g.state s).isClosed with
    | true =>
      rw [gained.closed s before] at edge ⊢
      have insideF : f < base.size := by
        by_contra beyond
        rw [rep.not_final (tidy.made s inside f edge (Nat.le_of_not_lt beyond))] at isFinal
        cases isFinal
      rw [gained.final f insideF isFinal]
      exact tidy.better s inside before f edge isFinal
    | false =>
      have walked : s ∈ last.openReach id := by
        by_contra apart
        rw [unwalked s apart, before] at status
        cases status
      have insideF := original s inside f edge before isFinal
      have best := closed.settled.kind s walked f edge
      rwa [gainedLast.final f insideF isFinal, ← gained.final f insideF isFinal] at best
  · rw [epsilon] at edge
    rw [closes.hasMoves]
    cases before : (g.state s).isClosed with
    | true =>
      rw [gained.closed s before] at edge
      exact tidy.made s inside x edge beyond
    | false =>
      rcases gained.list s inside before x edge with link | ⟨_, moves | ⟨originalX, _⟩⟩
      · have := (rep.openEdge fresh inside before link).2
        omega
      · exact moves
      · omega

/-- Something that matters is in the list. -/
def Carries (g : Graph) (s : Nat) : Prop := ∃ x ∈ (g.state s).epsilon, (g.state x).matters = true

/-- After closing, a walked state carries what it bears. -/
theorem close_carries (fresh : Fresh base) (rep : Represents base sem g) (tidy : Tidy base g (id + 1))
    (idInside : id < base.size) {s : Nat} (member : s ∈ g.openReach id) : Carries (g.close id) s ↔ Bears g s := by
  obtain ⟨last, h, closed, gained, _, result⟩ := close_gained fresh rep tidy
  obtain ⟨isOpen, path⟩ := mem_openReach.mp member
  have inside := (rep.openPath fresh path idInside isOpen.unclosed).2
  have unclosed := (open_of_mem_openReach member).unclosed
  unfold Carries
  rw [result, closed.marked_epsilon]
  simp only [closed.closes.matters]
  constructor
  · rintro ⟨x, edge, matters⟩
    exact gained.bears inside unclosed edge matters
  · intro bears
    exact closed.carries rep bears (closed.before.grows.openReach member)

/-- Closing leaves the original states alone that it does not walk. -/
theorem close_unwalked (fresh : Fresh base) (rep : Represents base sem g) (tidy : Tidy base g (id + 1))
    (idInside : id < base.size) {s : Nat} (inside : s < base.size) (apart : s ∉ g.openReach id) :
    (g.close id).state s = g.state s := by
  obtain ⟨last, h, closed, _, _, result⟩ := close_gained fresh rep tidy
  have unwalked : s ∉ last.openReach id := fun walked => apart (closed.walked rep tidy idInside inside walked)
  rw [result, markClosed_other unwalked, closed.others s unwalked]

/-! ### What lies before the gate and behind it -/

/-- A walked state lies before the gate, or the gate bears what it bears. -/
theorem AtGate.place (atGate : AtGate base sem g id gate inner outer) {s : Nat} (member : s ∈ g.openReach id) :
    s ∈ inner ∨ (s ∈ outer ∧ (Bears g s → Bears g gate)) := by
  obtain ⟨isOpen, path⟩ := mem_openReach.mp member
  clear member
  induction path with
  | refl =>
    rcases atGate.gateway.root with inInner | rfl
    · exact .inl inInner
    · exact .inr ⟨atGate.gateway.gateOuter, fun bears => bears⟩
  | @tail q s path edge ih =>
    have reachedQ : q ∈ g.openReach id := mem_openReach.mpr ⟨isOpen, path⟩
    obtain ⟨inside, unclosed⟩ := atGate.reached reachedQ
    rcases ih with inInner | ⟨inOuter, bearsQ⟩
    · rcases atGate.innerEdge reachedQ inInner edge.1 with ⟨inS, _⟩ | rfl
      · exact .inl inS
      · exact .inr ⟨atGate.gateway.gateOuter, fun bears => bears⟩
    · obtain ⟨baseEdge, insideS⟩ := atGate.rep.openEdge atGate.fresh inside unclosed edge.1
      rcases atGate.gateway.outerEdge q inOuter (fun none => nomatch none) s baseEdge with behind | ⟨outerS, _⟩
      · exact absurd behind (atGate.not_behind insideS edge.2.unclosed)
      · exact .inr ⟨outerS, fun bears => bearsQ (.step unclosed edge.1 bears)⟩

/-- If nothing that matters lies at the gate, the closed states next to the walked ones are quiet. -/
theorem AtGate.quiet (atGate : AtGate base sem g id gate inner outer) (still : (g.state gate).matters = false)
    (nothing : ¬ Bears g gate) {s t : Nat} (member : s ∈ g.openReach id) (edge : t ∈ (g.state s).epsilon)
    (closed : (g.state t).isClosed = true) : Quiet g t := by
  obtain ⟨inside, unclosed⟩ := atGate.reached member
  rcases atGate.place member with inInner | ⟨_, bears⟩
  · rcases atGate.innerEdge member inInner edge with ⟨_, reachedT⟩ | rfl
    · rw [(atGate.reached reachedT).2] at closed
      cases closed
    · exact ⟨closed, still, fun x edgeX => Bool.eq_false_iff.mpr fun matters => nothing (.link edgeX matters)⟩
  · refine ⟨closed, Bool.eq_false_iff.mpr fun matters => nothing (bears (.link edge matters)), fun x edgeX => ?_⟩
    exact Bool.eq_false_iff.mpr fun matters => nothing (bears (.step unclosed edge (.link edgeX matters)))

/-! ### Two graphs side by side -/

/-- Two graphs, closed so far down to the same state, that agree on the original states. -/
structure Twins (base : Graph) (sem : Standing) (g : Graph) (semOther : Standing) (h : Graph) (first : Nat) : Prop where
  rep : Represents base sem g
  repOther : Represents base semOther h
  tidy : Tidy base g first
  tidyOther : Tidy base h first
  kind : ∀ s, s < base.size → (h.state s).kind = (g.state s).kind
  carries : ∀ s, s < base.size → (g.state s).isClosed = true → (Carries g s ↔ Carries h s)

variable {first : Nat}

theorem Twins.isClosed (twins : Twins base sem g semOther h first) {s : Nat} (inside : s < base.size) :
    (h.state s).isClosed = (g.state s).isClosed := by
  rw [Bool.eq_iff_iff, twins.tidy.closed s inside, twins.tidyOther.closed s inside]

theorem Twins.symm (twins : Twins base sem g semOther h first) : Twins base semOther h sem g first where
  rep := twins.repOther
  repOther := twins.rep
  tidy := twins.tidyOther
  tidyOther := twins.tidy
  kind s inside := (twins.kind s inside).symm
  carries s inside closed := (twins.carries s inside (by rwa [← twins.isClosed inside])).symm

theorem Twins.state (twins : Twins base sem g semOther h first) {s : Nat} (inside : s < base.size)
    (unclosed : (g.state s).isClosed = false) : h.state s = g.state s := by
  rw [twins.rep.untouched s inside unclosed, twins.repOther.untouched s inside (by rwa [twins.isClosed inside])]

theorem Twins.matters (twins : Twins base sem g semOther h first) {s : Nat} (inside : s < base.size) :
    (h.state s).matters = (g.state s).matters := by
  obtain ⟨moves, _, isFinal⟩ := twins.rep.kept s inside
  obtain ⟨movesOther, _, isFinalOther⟩ := twins.repOther.kept s inside
  unfold State.matters State.hasMoves
  rw [moves, isFinal, movesOther, isFinalOther]

theorem Twins.source (twins : Twins base sem g semOther h first) (fresh : Fresh base) {s : Nat} {k : Kind}
    (source : Source g k s) (inside : s < base.size) : Source h k s := by
  induction source with
  | here kind => exact .here (by rwa [twins.kind _ inside])
  | step unclosed edge _ ih =>
    have same := twins.state inside unclosed
    exact .step (by rw [same]; exact unclosed) (by rw [same]; exact edge)
      (ih (twins.rep.openEdge fresh inside unclosed edge).2)

theorem Twins.bears (twins : Twins base sem g semOther h first) (fresh : Fresh base) {s : Nat}
    (bears : Bears g s) (inside : s < base.size) : Bears h s := by
  induction bears with
  | @moves s moves =>
    refine .moves ?_
    unfold State.hasMoves at moves ⊢
    rwa [(twins.repOther.kept s inside).1, ← (twins.rep.kept s inside).1]
  | @link s x edge matters =>
    cases status : (g.state s).isClosed with
    | true =>
      obtain ⟨y, edgeY, mattersY⟩ := (twins.carries s inside status).mp ⟨x, edge, matters⟩
      exact .link edgeY mattersY
    | false =>
      have insideX := (twins.rep.openEdge fresh inside status edge).2
      exact .link (by rw [twins.state inside status]; exact edge) (by rwa [twins.matters insideX])
  | step unclosed edge _ ih =>
    have same := twins.state inside unclosed
    exact .step (by rw [same]; exact unclosed) (by rw [same]; exact edge)
      (ih (twins.rep.openEdge fresh inside unclosed edge).2)

theorem Twins.reached (twins : Twins base sem g semOther h (id + 1)) (fresh : Fresh base) (idInside : id < base.size)
    {s : Nat} (member : s ∈ g.openReach id) : s ∈ h.openReach id := by
  obtain ⟨isOpen, path⟩ := mem_openReach.mp member
  obtain ⟨silent, inside⟩ := twins.rep.openPath fresh path idInside isOpen.unclosed
  have unclosed := (open_of_mem_openReach member).unclosed
  exact mem_openReach.mpr (twins.tidyOther.openPath twins.repOther silent inside (by rwa [twins.isClosed inside]))

/-- Closing gives the original states the same kinds in both graphs. -/
theorem Twins.close_kind (twins : Twins base sem g semOther h (id + 1)) (fresh : Fresh base)
    (gateway : Gateway base id gate inner outer) (idInside : id < base.size) {s : Nat} (inside : s < base.size) :
    ((h.close id).state s).kind = ((g.close id).state s).kind := by
  have atGate : AtGate base sem g id gate inner outer := ⟨fresh, twins.rep, twins.tidy, gateway, idInside⟩
  have atGateOther : AtGate base semOther h id gate inner outer :=
    ⟨fresh, twins.repOther, twins.tidyOther, gateway, idInside⟩
  have gateInside := gateway.inside gate (.inr gateway.gateOuter)
  by_cases member : s ∈ g.openReach id
  · by_cases bears : (g.state gate).matters = true ∨ Bears g gate
    · have bearsOther : (h.state gate).matters = true ∨ Bears h gate := by
        rw [twins.matters gateInside]
        exact bears.imp_right fun bears => twins.bears fresh bears gateInside
      have place : s ∈ inner ∨ s ∈ outer := (atGate.place member).imp_right And.left
      have best := atGate.close_finds gateInside bears member place
      have bestOther := atGateOther.close_finds gateInside bearsOther (twins.reached fresh idInside member) place
      refine bestOther.unique (best.congr fun k => exists_congr fun other => and_congr_right fun _ => ?_)
      exact ⟨fun source => twins.source fresh source inside, fun source => twins.symm.source fresh source inside⟩
    · obtain ⟨still, nothing⟩ := not_or.mp bears
      have stillOther : (h.state gate).matters = false := by
        rw [twins.matters gateInside, Bool.eq_false_iff]
        exact still
      have nothingOther : ¬ Bears h gate := fun bears => nothing (twins.symm.bears fresh bears gateInside)
      have lock : Lockstep (fun s => s) {s | s ∈ g.openReach id} base.size g h := by
        refine ⟨strictMono_id, twins.rep.size_le, fun t inside => inside.trans_le twins.repOther.size_le,
          fun t reached => ?_, fun t reached x edge => ?_⟩
        all_goals obtain ⟨insideT, unclosed⟩ := atGate.reached reached
        · exact (twins.state insideT unclosed).trans State.relocated_id.symm
        · have insideX := (twins.rep.openEdge fresh insideT unclosed edge).2
          refine ⟨insideX, ?_⟩
          cases status : (g.state x).isClosed with
          | true =>
            have edgeOther : x ∈ (h.state t).epsilon := by
              rw [twins.state insideT unclosed]
              exact edge
            exact .inr ⟨atGate.quiet (Bool.eq_false_iff.mpr still) nothing reached edge status,
              atGateOther.quiet stillOther nothingOther (twins.reached fresh idInside reached) edgeOther
                (by rw [twins.isClosed insideX]; exact status),
              twins.kind x insideX⟩
          | false => exact .inl (atGate.next reached edge status)
      have root : id ∈ g.openReach id := mem_openReach.mpr ⟨(mem_openReach.mp member).1, .refl⟩
      have after := (lock.close twins.rep.toSound twins.repOther.toSound root idInside).same s member
      rw [after, State.relocated_kind]
  · have apart : s ∉ h.openReach id := fun there => member (twins.symm.reached fresh idInside there)
    rw [close_unwalked fresh twins.rep twins.tidy idInside inside member,
      close_unwalked fresh twins.repOther twins.tidyOther idInside inside apart, twins.kind s inside]

theorem Twins.close_carries (twins : Twins base sem g semOther h (id + 1)) (fresh : Fresh base) (idInside : id < base.size)
    {s : Nat} (inside : s < base.size) (closed : ((g.close id).state s).isClosed = true) :
    Carries (g.close id) s ↔ Carries (h.close id) s := by
  by_cases member : s ∈ g.openReach id
  · rw [Graph.close_carries fresh twins.rep twins.tidy idInside member,
      Graph.close_carries fresh twins.repOther twins.tidyOther idInside (twins.reached fresh idInside member)]
    exact ⟨fun bears => twins.bears fresh bears inside, fun bears => twins.symm.bears fresh bears inside⟩
  · have apart : s ∉ h.openReach id := fun there => member (twins.symm.reached fresh idInside there)
    have same := close_unwalked fresh twins.rep twins.tidy idInside inside member
    have sameOther := close_unwalked fresh twins.repOther twins.tidyOther idInside inside apart
    obtain ⟨_, _, walkedG, _, _, resultG⟩ := close_gained fresh twins.rep twins.tidy
    obtain ⟨_, _, walkedH, _, _, resultH⟩ := close_gained fresh twins.repOther twins.tidyOther
    have mattersG : ∀ x : Nat, ((g.close id).state x).matters = (g.state x).matters := by
      rw [resultG]
      exact walkedG.closes.matters
    have mattersH : ∀ x : Nat, ((h.close id).state x).matters = (h.state x).matters := by
      rw [resultH]
      exact walkedH.closes.matters
    unfold Carries
    simp only [same, sameOther, mattersG, mattersH]
    rw [same] at closed
    exact twins.carries s inside closed

/-! ### Completing -/

/-- What completing does to the states that are there already, beyond closing. -/
structure Relisted (g : Graph) (id : Nat) (after : Graph) : Prop where
  size_le : g.size ≤ after.size
  other : ∀ s : Nat, s < g.size → s ≠ id → after.state s = g.state s
  same : after.state id = { g.state id with
    epsilon := (after.state id).epsilon, keptEpsilon := (after.state id).keptEpsilon }
  useful : ∀ x ∈ (after.state id).epsilon, (after.state x).hasMoves = true
  bare : (g.state id).epsilon = [] → (after.state id).epsilon = []

theorem completeState_relisted (fresh : Fresh base) (rule : MergeRule) (prog : Progress base sem g) (idInside : id < base.size) :
    Relisted (g.close id) id (completeState rule g id) := by
  have ready : Ready base g id := fun hub => absurd hub.1 (by omega)
  obtain ⟨closedProg, closes⟩ := prog.close ready
  obtain ⟨semAfter, merges⟩ := mergeAll_merges fresh rule closedProg.toRepresents (closedProg.target id)
  have within : id < (g.close id).size := by
    rw [closes.size]
    exact idInside.trans_le prog.size_le
  have bare : ((g.close id).state id).epsilon = [] →
      (mergeAll rule (g.close id) ((g.close id).state id).epsilon).2 = [] := by
    intro nothing
    rw [nothing, @mergeAll_short _ id _ _ (.inl rfl)]
  unfold completeState
  dsimp only
  generalize mergeAll rule (g.close id) ((g.close id).state id).epsilon = result at merges bare
  obtain ⟨merged, ids⟩ := result
  dsimp only at merges bare ⊢
  have here : id < merged.size := within.trans_le merges.ext.size_le
  refine ⟨?_, fun s low different => ?_, ?_, fun x edge => ?_, fun nothing => ?_⟩
  · rw [size_alter]
    exact merges.ext.size_le
  · rw [state_alter_other different, merges.ext.state s low]
  · rw [state_alter_same here, merges.ext.state id within]
  · rw [state_alter_same here] at edge
    have moves := (List.mem_filter.mp edge).2
    rw [state_alter]
    split
    · rename_i atId
      rw [← atId.1]
      exact moves
    · exact moves
  · rw [state_alter_same here, bare nothing]
    rfl

variable {after afterOther : Graph}

/-- Apart from the list of `id` and its length, every state is as before. -/
theorem Relisted.state (relisted : Relisted g id after) {s : Nat} (inside : s < g.size) : after.state s = { g.state s with
    epsilon := (after.state s).epsilon, keptEpsilon := (after.state s).keptEpsilon } := by
  by_cases here : s = id
  · rw [here]
    exact relisted.same
  · rw [relisted.other s inside here]

theorem Relisted.matters (relisted : Relisted g id after) {s : Nat} (inside : s < g.size) :
    (after.state s).matters = (g.state s).matters := by
  rw [relisted.state inside]
  rfl

theorem Relisted.kind (relisted : Relisted g id after) {s : Nat} (inside : s < g.size) :
    (after.state s).kind = (g.state s).kind := by
  rw [relisted.state inside]

theorem Relisted.isClosed (relisted : Relisted g id after) {s : Nat} (inside : s < g.size) :
    (after.state s).isClosed = (g.state s).isClosed := by
  rw [relisted.state inside]

theorem Relisted.isFinal (relisted : Relisted g id after) {s : Nat} (inside : s < g.size) :
    (after.state s).isFinal = (g.state s).isFinal := by
  rw [relisted.state inside]

theorem Relisted.hasMoves (relisted : Relisted g id after) {s : Nat} (inside : s < g.size) :
    (after.state s).hasMoves = (g.state s).hasMoves := by
  rw [relisted.state inside]
  rfl

theorem Tidy.relisted (tidy : Tidy base g first) (rep : Represents base sem g) (repAfter : Represents base semOther after)
    (relisted : Relisted g id after) : Tidy base after first := by
  have low : ∀ {s}, s < base.size → s < g.size := fun inside => Nat.lt_of_lt_of_le inside rep.size_le
  refine ⟨fun s inside => ?_, fun f inside isFinal => ?_, fun s inside status f edge isFinal => ?_,
    fun s inside x edge beyond => ?_⟩
  · rw [relisted.isClosed (low inside)]
    exact tidy.closed s inside
  · rw [relisted.isFinal (low inside)] at isFinal
    obtain ⟨bare, still⟩ := tidy.final f inside isFinal
    rw [relisted.hasMoves (low inside)]
    refine ⟨?_, still⟩
    by_cases here : f = id
    · rw [here] at bare ⊢
      exact relisted.bare bare
    · rw [relisted.other f (low inside) here]
      exact bare
  · by_cases here : s = id
    · rw [here] at edge
      rw [repAfter.not_final (relisted.useful f edge)] at isFinal
      cases isFinal
    · rw [relisted.other s (low inside) here] at edge status ⊢
      have insideF := rep.target s f edge
      rw [relisted.isFinal insideF] at isFinal
      rw [relisted.kind insideF]
      exact tidy.better s inside status f edge isFinal
  · by_cases here : s = id
    · rw [here] at edge
      exact relisted.useful x edge
    · rw [relisted.other s (low inside) here] at edge
      rw [relisted.hasMoves (rep.target s x edge)]
      exact tidy.made s inside x edge beyond

/-- A completed original state carries something just when something can be read from it on. -/
theorem Represents.carries_iff (rep : Represents base sem g) (inside : id < base.size) (done : Done g id) :
    Carries g id ↔ ∃ code t, Gets base id code t := by
  have listed : ∀ code t, Gets base id code t ↔ ∃ m ∈ (g.state id).epsilon, MovesTo g sem m code t := fun code t => by
    rw [← rep.getsAny_self inside]
    exact rep.listed done.closed
  constructor
  · rintro ⟨x, edge, _⟩
    obtain ⟨code, t, moves⟩ := rep.exists_movesTo (done.useful x edge)
    exact ⟨code, t, (listed code t).mpr ⟨x, edge, moves⟩⟩
  · rintro ⟨code, t, gets⟩
    obtain ⟨m, edge, moves⟩ := (listed code t).mp gets
    exact ⟨m, edge, matters_of_hasMoves (moves.hasMoves (rep.valid m))⟩

/-- Completing a state keeps two graphs together, whatever each of them merges. -/
theorem Twins.complete (twins : Twins base sem g semOther h (id + 1)) (fresh : Fresh base) (prog : Progress base sem g)
    (progOther : Progress base semOther h) (gateway : Gateway base id gate inner outer) (idInside : id < base.size)
    (rule ruleOther : MergeRule) : ∃ semAfter semAfterOther, Progress base semAfter (completeState rule g id) ∧
      Progress base semAfterOther (completeState ruleOther h id) ∧
      Twins base semAfter (completeState rule g id) semAfterOther (completeState ruleOther h id) id := by
  have notHub : ∀ g, ¬ IsHub base g id := fun _ hub => absurd hub.1 (by omega)
  obtain ⟨semAfter, completes⟩ := completeState_completes fresh rule prog (idInside.trans_le prog.size_le)
    fun hub => absurd hub (notHub g)
  obtain ⟨semAfterOther, completesOther⟩ := completeState_completes fresh ruleOther progOther
    (idInside.trans_le progOther.size_le) fun hub => absurd hub (notHub h)
  have relisted := completeState_relisted fresh rule prog idInside
  have relistedOther := completeState_relisted fresh ruleOther progOther idInside
  have repClosed := (prog.close fun hub => absurd hub (notHub g)).1.toRepresents
  have repClosedOther := (progOther.close fun hub => absurd hub (notHub h)).1.toRepresents
  have low : ∀ {s}, s < base.size → s < (g.close id).size := fun inside => Nat.lt_of_lt_of_le inside repClosed.size_le
  have lowOther : ∀ {s}, s < base.size → s < (h.close id).size := fun inside =>
    Nat.lt_of_lt_of_le inside repClosedOther.size_le
  refine ⟨semAfter, semAfterOther, completes.progress, completesOther.progress, completes.progress.toRepresents,
    completesOther.progress.toRepresents,
    (twins.tidy.close fresh twins.rep idInside).relisted repClosed completes.progress.toRepresents relisted,
    (twins.tidyOther.close fresh twins.repOther idInside).relisted repClosedOther completesOther.progress.toRepresents
      relistedOther, fun s inside => ?_, fun s inside closed => ?_⟩
  · rw [relisted.kind (low inside), relistedOther.kind (lowOther inside)]
    exact twins.close_kind fresh gateway idInside inside
  · by_cases here : s = id
    · rw [here, completes.progress.toRepresents.carries_iff idInside completes.done,
        completesOther.progress.toRepresents.carries_iff idInside completesOther.done]
    · rw [relisted.isClosed (low inside)] at closed
      have same : Carries (completeState rule g id) s ↔ Carries (g.close id) s := by
        unfold Carries
        rw [relisted.other s (low inside) here]
        exact exists_congr fun x => and_congr_right fun edge => by rw [relisted.matters (repClosed.target s x edge)]
      have sameOther : Carries (completeState ruleOther h id) s ↔ Carries (h.close id) s := by
        unfold Carries
        rw [relistedOther.other s (lowOther inside) here]
        exact exists_congr fun x => and_congr_right fun edge => by
          rw [relistedOther.matters (repClosedOther.target s x edge)]
      rw [same, sameOther]
      exact twins.close_carries fresh idInside inside closed

theorem Fresh.tidy (fresh : Fresh base) : Tidy base base base.size where
  closed s inside := by
    constructor
    · intro status
      rw [fresh.marks s] at status
      cases status
    · rintro ⟨j, le, insideJ, _⟩
      omega
  final f inside isFinal := by
    refine ⟨fresh.final f isFinal, ?_⟩
    rw [Bool.eq_false_iff]
    intro moves
    obtain ⟨n, goes⟩ := next_of_hasMoves (fresh.idle f) moves
    rw [(fresh.next f n goes).2.2.2.2] at isFinal
    cases isFinal
  better s inside status := by
    rw [fresh.marks s] at status
    cases status
  made s inside x edge beyond := by
    have := fresh.target s x edge
    omega

/-- The graph of rules, closed in two ways, the last made states first. -/
theorem Twins.completeOriginals {rules : List RulePiece} (ruled : Ruled base rules) (rule ruleOther : MergeRule)
    (count : Nat) (le : count ≤ base.size) (prog : Progress base sem g) (progOther : Progress base semOther h)
    (twins : Twins base sem g semOther h count) {s : Nat} (inside : s < base.size) :
    (((List.range count).reverse.foldl (completeState ruleOther) h).state s).kind =
      (((List.range count).reverse.foldl (completeState rule) g).state s).kind := by
  induction count generalizing g h sem semOther with
  | zero => exact twins.kind s inside
  | succ count ih =>
    rw [reverse_range_succ, List.foldl_cons, List.foldl_cons]
    obtain ⟨gate, inner, outer, gateway⟩ := ruled.gateway (show count < base.size by omega)
    obtain ⟨semAfter, semAfterOther, next, nextOther, nextTwins⟩ :=
      twins.complete ruled.fresh prog progOther gateway (by omega) rule ruleOther
    exact ih (by omega) next nextOther nextTwins

/-- Merging does not change the kinds that closing finds for the original states. -/
theorem completeAll_kind {rules : List RulePiece} (ruled : Ruled base rules) (mode other : Closing) {s : Nat}
    (inside : s < base.size) : ((base.completeAll other).state s).kind = ((base.completeAll mode).state s).kind := by
  have fresh := ruled.fresh
  rw [(completeAll_completes fresh mode).2 s inside, (completeAll_completes fresh other).2 s inside]
  have twins : Twins base (fun s => {s}) base (fun s => {s}) base base.size :=
    ⟨fresh.represents, fresh.represents, fresh.tidy, fresh.tidy, fun _ _ => rfl, fun _ _ _ => Iff.rfl⟩
  exact twins.completeOriginals ruled _ _ base.size (Nat.le_refl _) fresh.progress fresh.progress inside

/-! ### Runs -/

variable {closed named closedOther namedOther : Graph} {starts : Set Nat} {active activeOther : List StateId}

theorem Fresh.entering_inside (fresh : Fresh base) {c : Char} {t : Nat} (member : t ∈ base.entering starts c) :
    t < base.size := by
  obtain ⟨_, _, a, _, _, goes⟩ := member
  exact (fresh.next a t goes).2.1

/-- What is seen of a step: the kind reported, and whether any state is still active. -/
def seen (reached : Option Kind × List StateId) : Option Kind × Bool := (reached.1, reached.2.isEmpty)

theorem Active.isEmpty_eq (one : Active base sem closed named starts active)
    (two : Active base semOther closedOther namedOther starts activeOther)
    (labelled : Labelled closed named) (labelledOther : Labelled closedOther namedOther)
    (completed : Completed base sem closed) (completedOther : Completed base semOther closedOther) :
    activeOther.isEmpty = active.isEmpty := by
  rw [Bool.eq_iff_iff, List.isEmpty_iff, List.isEmpty_iff, one.eq_nil_iff labelled completed,
    two.eq_nil_iff labelledOther completedOther]

/-- Runs that begin with what can be read from the same states on are seen alike, character by character. -/
theorem Active.trace_seen (fresh : Fresh base) (labelled : Labelled closed named)
    (labelledOther : Labelled closedOther namedOther) (completed : Completed base sem closed)
    (completedOther : Completed base semOther closedOther)
    (kinds : ∀ s : Nat, s < base.size → (closedOther.state s).kind = (closed.state s).kind)
    (one : Active base sem closed named starts active)
    (two : Active base semOther closedOther namedOther starts activeOther) (text : List Char) :
    (namedOther.trace activeOther text).map seen = (named.trace active text).map seen := by
  induction text generalizing starts active activeOther with
  | nil => rfl
  | cons c rest ih =>
    have next := one.step labelled completed c
    have nextOther := two.step labelledOther completedOther c
    have same : (namedOther.step c activeOther).1 = (named.step c active).1 := by
      have best := one.kind labelled completed c
      have bestOther := two.kind labelledOther completedOther c
      refine bestOther.unique (best.congr fun k => exists_congr fun t => and_congr_right fun member => ?_)
      rw [kinds t (fresh.entering_inside member)]
    unfold trace
    rw [List.map_cons, List.map_cons, ih next nextOther]
    unfold seen
    rw [same, next.isEmpty_eq nextOther labelled labelledOther completed completedOther]

/-- A graph of rules that is closed with merging runs like the one that is closed without: the empty text has the same
kind, and every text leads to the same kinds and leaves no state active after the same character. -/
theorem merging_keeps_runs {defs : Definitions} {unicodeInput : Bool} {rules : List Rule} {built : Graph}
    (ok : ofRules defs unicodeInput rules = .ok built) :
    let plain := (built.completeAll .plain).nameAll.1
    let merged := (built.completeAll .merging).nameAll.1
    merged.openingKind = plain.openingKind ∧ merged.openingStates.isEmpty = plain.openingStates.isEmpty ∧
      ∀ text : List Char, (merged.trace merged.openingStates text).map seen =
        (plain.trace plain.openingStates text).map seen := by
  obtain ⟨pieces, ruled, _⟩ := ofRules_ruled ok
  have fresh := ruled.fresh
  obtain ⟨sem, completed⟩ := completeAll_completed fresh .plain
  obtain ⟨semOther, completedOther⟩ := completeAll_completed fresh .merging
  obtain ⟨labelled, _⟩ := nameAll_labelled (completed.nameable fresh)
  obtain ⟨labelledOther, _⟩ := nameAll_labelled (completedOther.nameable fresh)
  have kinds : ∀ s : Nat, s < built.size →
      ((built.completeAll .merging).state s).kind = ((built.completeAll .plain).state s).kind :=
    fun s inside => completeAll_kind ruled .plain .merging inside
  intro plain merged
  have opening : ∀ {g named : Graph}, g.initial = some 0 → Labelled g named →
      named.openingKind = (g.state 0).kind ∧ named.openingStates = g.openingStates := by
    intro g named initial labelled
    unfold openingKind openingStates
    rw [labelled.same.initial, initial]
    exact ⟨labelled.same.kind 0, labelled.same.epsilon 0⟩
  obtain ⟨kind, states⟩ := opening (completed.initial.trans fresh.initial) labelled
  obtain ⟨kindOther, statesOther⟩ := opening (completedOther.initial.trans fresh.initial) labelledOther
  have one := labelled.active_opening completed fresh
  have two := labelledOther.active_opening completedOther fresh
  rw [← states] at one
  rw [← statesOther] at two
  exact ⟨kindOther.trans ((kinds 0 fresh.size_pos).trans kind.symm),
    one.isEmpty_eq two labelled labelledOther completed completedOther,
    one.trace_seen fresh labelled labelledOther completed completedOther kinds two⟩

/-- Two texts with one beginning, whose first moves are merged. -/
theorem merging_keeps_runs_of_two :
    ∃ built, ofRules [] false [⟨1, .literal .unknown "ab", false⟩, ⟨2, .literal .unknown "ac", false⟩] = .ok built ∧
      let merged := (built.completeAll .merging).nameAll.1
      (merged.trace merged.openingStates ['a', 'c']).map seen = [(none, false), (some 2, true)] := by
  obtain ⟨built, ok⟩ : ∃ built,
      ofRules [] false [⟨1, .literal .unknown "ab", false⟩, ⟨2, .literal .unknown "ac", false⟩] = .ok built := ⟨_, rfl⟩
  have plain : (ofRules [] false [⟨1, .literal .unknown "ab", false⟩, ⟨2, .literal .unknown "ac", false⟩]).map
      (fun g => ((g.completeAll .plain).nameAll.1.trace (g.completeAll .plain).nameAll.1.openingStates ['a', 'c']).map
        seen) = .ok [(none, false), (some 2, true)] := by
    cbv
  rw [ok] at plain
  exact ⟨built, ok, ((merging_keeps_runs ok).2.2 ['a', 'c']).trans (Except.ok.inj plain)⟩

end TokenTables.Automaton.Graph
