import TokenTables.Proofs.Automaton.Closing
import TokenTables.Proofs.Automaton.Gateway

/-!
What a state may gain when it is closed: the kinds and the states that matter which lie behind it, no further than
the first closed state of a path.
-/

namespace TokenTables.Automaton.Graph

open Kind (NoLater)

/-- The kind is that of a state behind `s` which is reached through open states. -/
inductive Source (g : Graph) (k : Kind) : Nat → Prop where
  | here {s : Nat} (kind : (g.state s).kind = some k) : Source g k s
  | step {s t : Nat} (unclosed : (g.state s).isClosed = false) (edge : t ∈ (g.state s).epsilon)
      (after : Source g k t) : Source g k s

/-- There is a state that matters for the list of `s`, behind it through open states or in the list of the closed
state where these end. -/
inductive Bears (g : Graph) : Nat → Prop where
  | moves {s : Nat} (moves : (g.state s).hasMoves = true) : Bears g s
  | link {s x : Nat} (edge : x ∈ (g.state s).epsilon) (matters : (g.state x).matters = true) : Bears g s
  | step {s t : Nat} (unclosed : (g.state s).isClosed = false) (edge : t ∈ (g.state s).epsilon)
      (after : Bears g t) : Bears g s

/-- No source of `s` is better than the kind. -/
def Finds (g : Graph) (s : Nat) (kind : Option Kind) : Prop := ∀ k, Source g k s → NoLater kind (some k)

/-- The kind is that of a source of `s`, or a later one. -/
def Sourced (g : Graph) (s : Nat) (kind : Option Kind) : Prop := ∀ k, kind = some k → ∃ first ≤ k, Source g first s

variable {base g h last : Graph} {sem : Standing} {id : Nat}

theorem Finds.mono {s : Nat} {kind better : Option Kind} (finds : Finds g s kind) (le : NoLater better kind) :
    Finds g s better := fun k source => le.trans (finds k source)

theorem Sourced.step {s t : Nat} {kind : Option Kind} (sourced : Sourced g t kind)
    (unclosed : (g.state s).isClosed = false) (edge : t ∈ (g.state s).epsilon) : Sourced g s kind := by
  intro k same
  obtain ⟨first, le, source⟩ := sourced k same
  exact ⟨first, le, .step unclosed edge source⟩

theorem Sourced.own (s : Nat) : Sourced g s (g.state s).kind := fun k same => ⟨k, Nat.le_refl _, .here same⟩

/-- Of a closed state only its own kind counts. -/
theorem Source.ofClosed {s : Nat} {k : Kind} (source : Source g k s) (closed : (g.state s).isClosed = true) :
    (g.state s).kind = some k := by
  cases source with
  | here kind => exact kind
  | step unclosed =>
    rw [unclosed] at closed
    cases closed

theorem Bears.ofClosed {s : Nat} (bears : Bears g s) (closed : (g.state s).isClosed = true) :
    (g.state s).hasMoves = true ∨ ∃ x ∈ (g.state s).epsilon, (g.state x).matters = true := by
  cases bears with
  | moves moves => exact .inl moves
  | link edge matters => exact .inr ⟨_, edge, matters⟩
  | step unclosed =>
    rw [unclosed] at closed
    cases closed

/-- The graph when the original states from `first` on have been closed, in terms of the original states. -/
structure Tidy (base g : Graph) (first : Nat) : Prop where
  closed : ∀ s, s < base.size → ((g.state s).isClosed = true ↔ s ∈ base.BehindFrom first)
  final : ∀ f, f < base.size → (g.state f).isFinal = true →
    (g.state f).epsilon = [] ∧ (g.state f).hasMoves = false
  better : ∀ s, s < base.size → (g.state s).isClosed = true → ∀ f ∈ (g.state s).epsilon,
    (g.state f).isFinal = true → NoLater (g.state s).kind (g.state f).kind
  made : ∀ s, s < base.size → ∀ x ∈ (g.state s).epsilon, base.size ≤ x → (g.state x).hasMoves = true

/-- The list of an open original state leads to original states. -/
theorem Represents.openEdge (rep : Represents base sem g) (fresh : Fresh base) {s t : Nat} (inside : s < base.size)
    (unclosed : (g.state s).isClosed = false) (edge : t ∈ (g.state s).epsilon) :
    t ∈ (base.state s).epsilon ∧ t < base.size := by
  rw [rep.untouched s inside unclosed] at edge
  exact ⟨edge, fresh.target s t edge⟩

/-- Through open original states epsilon moves are those of the built graph. -/
theorem Represents.openPath (rep : Represents base sem g) (fresh : Fresh base) {s t : Nat} (path : OpenPath g s t)
    (inside : s < base.size) (unclosed : (g.state s).isClosed = false) : Silent base s t ∧ t < base.size := by
  have whole : Silent base s t ∧ t < base.size ∧ (g.state t).isClosed = false := by
    induction path with
    | refl => exact ⟨.refl, inside, unclosed⟩
    | @tail q t _ edge ih =>
      obtain ⟨before, insideQ, unclosedQ⟩ := ih
      obtain ⟨step, insideT⟩ := rep.openEdge fresh insideQ unclosedQ edge.1
      exact ⟨before.tail step, insideT, edge.2.unclosed⟩
  exact ⟨whole.1, whole.2.1⟩

theorem matters_cases {s : State} (matters : s.matters = true) : s.hasMoves = true ∨ s.isFinal = true := by
  unfold State.matters at matters
  exact (Bool.or_eq_true_iff.mp matters).symm

/-! ### Gains -/

/-- A member that the list of `s` may have. -/
def Gain (base g : Graph) (s x : Nat) : Prop :=
  x ∈ (g.state s).epsilon ∨ (Bears g s ∧ ((g.state x).hasMoves = true ∨
    (x < base.size ∧ (g.state x).isFinal = true ∧ Sourced g s (g.state x).kind)))

/-- What open original states have gained while states of `g` are being closed. -/
structure Gained (base g h : Graph) : Prop where
  closed : ∀ s : Nat, (g.state s).isClosed = true → h.state s = g.state s
  final : ∀ s, s < base.size → (g.state s).isFinal = true → h.state s = g.state s
  list : ∀ s, s < base.size → (g.state s).isClosed = false → ∀ x ∈ (h.state s).epsilon, Gain base g s x
  kind : ∀ s, s < base.size → (g.state s).isClosed = false → Sourced g s (h.state s).kind

theorem Gained.start (base g : Graph) : Gained base g g :=
  ⟨fun _ _ => rfl, fun _ _ _ => rfl, fun _ _ _ _ edge => .inl edge, fun s _ _ => .own s⟩

/-- What lies behind a member that may be gained may be gained as well. -/
theorem Gained.behind (gained : Gained base g h) (fresh : Fresh base) (rep : Represents base sem g)
    {first : Nat} (tidy : Tidy base g first) (sound : Sound base sem h) (grows : Grows g h) {s q x : Nat}
    (inside : s < base.size) (unclosed : (g.state s).isClosed = false) (member : Gain base g s q)
    (edge : x ∈ (h.state q).epsilon) (matters : (g.state x).matters = true) : Gain base g s x := by
  rcases member with link | ⟨bears, moves | ⟨original, isFinal, _⟩⟩
  · obtain ⟨_, insideQ⟩ := rep.openEdge fresh inside unclosed link
    cases status : (g.state q).isClosed with
    | true =>
      rw [gained.closed q status] at edge
      refine .inr ⟨.step unclosed link (.link edge matters), ?_⟩
      by_cases moves : (g.state x).hasMoves = true
      · exact .inl moves
      have isFinal := (matters_cases matters).resolve_left moves
      refine .inr ⟨Nat.lt_of_not_le fun beyond => moves (tidy.made q insideQ x edge beyond), isFinal, fun k same => ?_⟩
      obtain ⟨best, le, kind⟩ := tidy.better q insideQ status x edge isFinal k same
      exact ⟨best, le, .step unclosed link (.here kind)⟩
    | false =>
      rcases gained.list q insideQ status x edge with before | ⟨bears, gain⟩
      · refine .inr ⟨.step unclosed link (.link before matters), (matters_cases matters).imp_right fun isFinal => ?_⟩
        exact ⟨(rep.openEdge fresh insideQ status before).2, isFinal, ((Sourced.own x).step status before).step unclosed link⟩
      · refine .inr ⟨.step unclosed link bears, gain.imp_right fun ⟨original, isFinal, sourced⟩ => ?_⟩
        exact ⟨original, isFinal, sourced.step unclosed link⟩
  · obtain ⟨n, goes⟩ := next_of_hasMoves (rep.idle q) moves
    have same : x = q := by
      rcases (sound.alone q n (by rwa [grows.next])).2 with bare | single
      · rw [bare] at edge
        cases edge
      · rw [single] at edge
        exact List.mem_singleton.mp edge
    exact .inr ⟨bears, .inl (same ▸ moves)⟩
  · rw [gained.final q original isFinal, (tidy.final q original isFinal).1] at edge
    cases edge

theorem absorbed_final (bare : (h.state id).epsilon = []) (still : (h.state id).hasMoves = false) :
    (h.absorb id).1.state id = h.state id := by
  rcases Nat.lt_or_ge id h.size with inside | beyond
  · have nothing : h.absorbed id = ([], (h.state id).kind) := by
      unfold absorbed gatherAll
      rw [bare]
      cases places : ([] : List StateId).length + h.size with
      | zero => rfl
      | succ n => rfl
    have list : h.absorbedList id = [] := by
      unfold absorbedList
      rw [nothing, still]
      rfl
    rw [absorb_state_same inside, list, nothing, ← bare]
  · rw [absorb_fst, state_of_size_le (by rwa [size_alter]), state_of_size_le beyond]

theorem gained_kept (fresh : Fresh base) (rep : Represents base sem g) {first : Nat} (tidy : Tidy base g first) :
    Kept base sem g (Gained base g) := by
  intro h s grows sound isOpen gained
  have wasOpen := grows.open_iff.mp isOpen
  have behind : s < base.size → ∀ q, Gain base g s q → ∀ x ∈ (h.state q).epsilon, (h.state x).matters = true →
      Gain base g s x := fun inside q member x edge matters =>
    gained.behind fresh rep tidy sound grows inside wasOpen.unclosed member edge (by rwa [grows.matters] at matters)
  refine ⟨fun t closed => ?_, fun t inside isFinal => ?_, fun t inside unclosed x member => ?_,
    fun t inside unclosed => ?_⟩
  · have different : t ≠ s := by
      rintro rfl
      rw [wasOpen.unclosed] at closed
      cases closed
    rw [absorb_state_other different]
    exact gained.closed t closed
  · have before := gained.final t inside isFinal
    by_cases here : t = s
    · obtain ⟨bare, still⟩ := tidy.final t inside isFinal
      rw [← here, absorbed_final (by rw [before]; exact bare) (by rw [before]; exact still)]
      exact before
    · rw [absorb_state_other here]
      exact before
  · by_cases here : t = s
    · subst here
      rw [absorb_state_same isOpen.inside] at member
      rcases mem_absorbedList.mp member with found | ⟨moves, rfl⟩
      · exact gather_all (behind inside) (gained.list t inside unclosed) x found
      · rw [grows.hasMoves] at moves
        exact .inr ⟨.moves moves, .inl moves⟩
    · rw [absorb_state_other here] at member
      exact gained.list t inside unclosed x member
  · by_cases here : t = s
    · subst here
      rw [absorb_state_same isOpen.inside]
      intro k result
      rcases gather_kind (behind inside) (gained.list t inside unclosed) result with old | ⟨q, gain, kind⟩
      · exact gained.kind t inside unclosed k old
      rcases gain with link | ⟨_, moves | ⟨original, isFinal, sourced⟩⟩
      · cases status : (g.state q).isClosed with
        | true =>
          rw [gained.closed q status] at kind
          exact ((Sourced.own q).step unclosed link) k kind
        | false =>
          obtain ⟨_, insideQ⟩ := rep.openEdge fresh inside unclosed link
          exact ((gained.kind q insideQ status).step unclosed link) k kind
      · obtain ⟨n, goes⟩ := next_of_hasMoves (rep.idle q) moves
        rw [(sound.alone q n (by rwa [grows.next])).1] at kind
        cases kind
      · rw [gained.final q original isFinal] at kind
        exact sourced k kind
    · rw [absorb_state_other here]
      exact gained.kind t inside unclosed

theorem Gained.bears (gained : Gained base g h) {s x : Nat} (inside : s < base.size)
    (unclosed : (g.state s).isClosed = false) (edge : x ∈ (h.state s).epsilon) (matters : (g.state x).matters = true) :
    Bears g s := by
  rcases gained.list s inside unclosed x edge with before | ⟨bears, _⟩
  · exact .link before matters
  · exact bears

/-- A walked state that bears something has it in its list after the last round. -/
theorem Closed.carries (closed : Closed base sem g last h id) (rep : Represents base sem g) {s : Nat}
    (bears : Bears g s) (walked : s ∈ last.openReach id) :
    ∃ x ∈ (h.state s).epsilon, (g.state x).matters = true := by
  have sameMatters : ∀ x : Nat, (last.state x).matters = (g.state x).matters := closed.before.grows.matters
  induction bears with
  | @moves s moves =>
    refine ⟨s, closed.settled.itself s walked (by rwa [closed.before.grows.hasMoves]), ?_⟩
    unfold State.matters
    rw [moves, Bool.or_true]
  | @link s x edge matters => exact ⟨x, closed.grows.more s x edge, matters⟩
  | @step s t unclosed edge after ih =>
    have inList := closed.grows.more s t edge
    rcases closed.next walked edge (rep.target s t edge) with walkedT | status
    · obtain ⟨y, member, matters⟩ := ih walkedT
      exact ⟨y, closed.settled.behind s walked t inList y member (by rwa [sameMatters]), matters⟩
    · rcases after.ofClosed status with moves | ⟨y, member, matters⟩
      · refine ⟨t, inList, ?_⟩
        unfold State.matters
        rw [moves, Bool.or_true]
      · have member := closed.grows.more t y member
        exact ⟨y, closed.settled.behind s walked t inList y member (by rwa [sameMatters]), matters⟩

end TokenTables.Automaton.Graph
