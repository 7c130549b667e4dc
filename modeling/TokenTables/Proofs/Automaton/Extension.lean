import TokenTables.Automaton.Merging
import TokenTables.Proofs.Automaton.Closing

/-!
States added while a graph is being closed. What a new state stands for is chosen so that its moves mean what
the moves of the states it replaces mean.
-/

namespace TokenTables.Automaton.Graph

variable {base g after : Graph} {sem semAfter : Standing}

/-- A second graph with the states of the first and some more. -/
structure Extends (g : Graph) (sem : Standing) (after : Graph) (semAfter : Standing) : Prop where
  size_le : g.size ≤ after.size
  state : ∀ s : Nat, s < g.size → after.state s = g.state s
  standing : ∀ s : Nat, s < g.size → semAfter s = sem s

theorem Extends.refl (g : Graph) (sem : Standing) : Extends g sem g sem :=
  ⟨Nat.le_refl _, fun _ _ => rfl, fun _ _ => rfl⟩

theorem Extends.trans {third : Graph} {semThird : Standing} (one : Extends g sem after semAfter)
    (two : Extends after semAfter third semThird) : Extends g sem third semThird where
  size_le := one.size_le.trans two.size_le
  state s inside := (two.state s (inside.trans_le one.size_le)).trans (one.state s inside)
  standing s inside := (two.standing s (inside.trans_le one.size_le)).trans (one.standing s inside)

theorem Represents.next_inside (rep : Represents base sem g) {s n : Nat} (goes : (g.state s).next = some n) :
    n < g.size := (rep.next s n goes).1

theorem Extends.movesTo (ext : Extends g sem after semAfter) (rep : Represents base sem g) {s code t : Nat}
    (inside : s < g.size) : MovesTo after semAfter s code t ↔ MovesTo g sem s code t := by
  unfold MovesTo
  rw [ext.state s inside]
  constructor
  · rintro ⟨accepts, n, next, member⟩
    rw [ext.standing n (rep.next_inside next)] at member
    exact ⟨accepts, n, next, member⟩
  · rintro ⟨accepts, n, next, member⟩
    rw [← ext.standing n (rep.next_inside next)] at member
    exact ⟨accepts, n, next, member⟩

theorem Extends.getsAny (ext : Extends g sem after semAfter) {s code t : Nat} (inside : s < g.size) :
    GetsAny base semAfter s code t ↔ GetsAny base sem s code t := by
  unfold GetsAny
  rw [ext.standing s inside]

theorem lt_of_isClosed {s : Nat} (closed : (g.state s).isClosed = true) : s < g.size := by
  rcases Nat.lt_or_ge s g.size with inside | beyond
  · exact inside
  · rw [state_of_size_le beyond] at closed
    cases closed

theorem Extends.chain (ext : Extends g sem after semAfter) (rep : Represents base sem g) {s code t : Nat}
    (inside : s < g.size) (chain : Chain base sem g code t s) : Chain base semAfter after code t s := by
  induction chain with
  | mover moves => exact .mover ((ext.movesTo rep inside).mpr moves)
  | @closed s closed gets =>
    exact .closed (by rwa [ext.state s inside]) ((ext.getsAny inside).mpr gets)
  | @step s q edge _ ih =>
    refine .step ?_ (ih (rep.target s q edge))
    rwa [ext.state s inside]

/-- What is asked of a single state that is added. -/
structure Fits (base : Graph) (sem : Standing) (g : Graph) (s : Nat) : Prop where
  target : ∀ q : Nat, q ∈ (g.state s).epsilon → q < g.size
  behind : ∀ q : Nat, q ∈ (g.state s).epsilon → Behind base sem s q
  kind : ∀ k : Kind, (g.state s).kind = some k → EndsAny base sem s k
  alone : ∀ n : Nat, (g.state s).next = some n →
    (g.state s).kind = none ∧ ((g.state s).epsilon = [] ∨ (g.state s).epsilon = [s])
  unnamed : Unnamed (g.state s)
  unclosed : (g.state s).isClosed = false
  idle : (g.state s).next = none → (g.state s).moves = {}
  valid : (g.state s).moves.Valid
  next : ∀ n : Nat, (g.state s).next = some n → n < g.size ∧ (sem n).Nonempty ∧ (g.state s).isFinal = false
  again : ∀ n m : Nat, (g.state s).next = some n → (g.state n).next = some m → n < base.size
  mover : ∀ n : Nat, (g.state s).next = some n → ∀ code t, MovesTo g sem s code t ↔ GetsAny base sem s code t
  chain : ∀ code t : Nat, GetsAny base sem s code t → Chain base sem g code t s

/-- Blank states beyond the end fit anywhere. -/
theorem Represents.extend (rep : Represents base sem g) (ext : Extends g sem after semAfter)
    (frame : { after with states := #[] } = { g with states := #[] })
    (new : ∀ s : Nat, g.size ≤ s → s < after.size → Fits base semAfter after s) :
    Represents base semAfter after := by
  have place : ∀ s : Nat, s < g.size ∨ Fits base semAfter after s ∨ after.state s = {} := by
    intro s
    rcases Nat.lt_or_ge s g.size with old | low
    · exact .inl old
    · rcases Nat.lt_or_ge s after.size with high | beyond
      · exact .inr (.inl (new s low high))
      · exact .inr (.inr (state_of_size_le beyond))
  have larger := ext.size_le
  refine {
    size_le := rep.size_le.trans ext.size_le
    initial := (congrArg Graph.initial frame).trans rep.initial
    noNames := ⟨(congrArg Graph.named frame).trans rep.noNames.1,
      (congrArg Graph.groups frame).trans rep.noNames.2⟩
    self := fun s inside => (ext.standing s (inside.trans_le rep.size_le)).trans (rep.self s inside)
    kept := fun s inside => ?_
    untouched := fun s inside isOpen => ?_
    unnamed := fun s => ?_
    idle := fun s halts => ?_
    valid := fun s => ?_
    next := fun s n goes => ?_
    again := fun s n m goes more => ?_
    mover := fun s n goes code t => ?_
    complete := fun s closed code t gets => ?_
    chain := fun s code t inside gets => ?_
    cache := fun members m member => ?_
    target := fun s q member => ?_
    behind := fun s q member => ?_
    kind := fun s k same => ?_
    alone := fun s n goes => ?_ }
  · rcases place s with old | fits | blank
    · rw [ext.state s old] at member
      exact (rep.target s q member).trans_le larger
    · exact fits.target q member
    · rw [blank] at member
      cases member
  · rcases place s with old | fits | blank
    · rw [ext.state s old] at member
      have behind := rep.behind s q member
      unfold Behind
      rw [ext.standing s old, ext.standing q (rep.target s q member)]
      exact behind
    · exact fits.behind q member
    · rw [blank] at member
      cases member
  · rcases place s with old | fits | blank
    · rw [ext.state s old] at same
      unfold EndsAny
      rw [ext.standing s old]
      exact rep.kind s k same
    · exact fits.kind k same
    · rw [blank] at same
      cases same
  · rcases place s with old | fits | blank
    · rw [ext.state s old] at goes ⊢
      exact rep.alone s n goes
    · exact fits.alone n goes
    · rw [blank] at goes
      cases goes
  · rcases place s with old | fits | blank
    · rw [ext.state s old]
      exact rep.unnamed s
    · exact fits.unnamed
    · rw [blank]
      exact ⟨rfl, rfl, rfl, rfl, rfl⟩
  · rw [ext.state s (inside.trans_le rep.size_le)]
    exact rep.kept s inside
  · rw [ext.state s (inside.trans_le rep.size_le)] at isOpen ⊢
    exact rep.untouched s inside isOpen
  · rcases place s with old | fits | blank
    · rw [ext.state s old] at halts ⊢
      exact rep.idle s halts
    · exact fits.idle halts
    · rw [blank]
  · rcases place s with old | fits | blank
    · rw [ext.state s old]
      exact rep.valid s
    · exact fits.valid
    · rw [blank]
      exact Moves.valid_empty
  · rcases place s with old | fits | blank
    · rw [ext.state s old] at goes ⊢
      obtain ⟨inside, nonempty, notFinal⟩ := rep.next s n goes
      rw [ext.standing n inside]
      exact ⟨inside.trans_le larger, nonempty, notFinal⟩
    · exact fits.next n goes
    · rw [blank] at goes
      cases goes
  · rcases place s with old | fits | blank
    · rw [ext.state s old] at goes
      have inside := rep.next_inside goes
      rw [ext.state n inside] at more
      exact rep.again s n m goes more
    · exact fits.again n m goes more
    · rw [blank] at goes
      cases goes
  · rcases place s with old | fits | blank
    · rw [ext.state s old] at goes
      rw [ext.movesTo rep old, ext.getsAny old]
      exact rep.mover s n goes code t
    · exact fits.mover n goes code t
    · rw [blank] at goes
      cases goes
  · rcases place s with old | fits | blank
    · rw [ext.getsAny old] at gets
      rw [ext.state s old] at closed ⊢
      obtain ⟨m, member, moves⟩ := rep.complete s closed code t gets
      exact ⟨m, member, (ext.movesTo rep (rep.target s m member)).mpr moves⟩
    · rw [fits.unclosed] at closed
      cases closed
    · rw [blank] at closed
      cases closed
  · rcases Nat.lt_or_ge s g.size with old | low
    · exact ext.chain rep old (rep.chain s code t old ((ext.getsAny old).mp gets))
    · exact (new s low inside).chain code t gets
  · rw [merged_of_frame frame] at member
    obtain ⟨next, inside, stands⟩ := rep.cache members m member
    obtain ⟨n, goes⟩ := Option.isSome_iff_exists.mp next
    have here : m < g.size := by
      rcases Nat.lt_or_ge m g.size with inside | beyond
      · exact inside
      · rw [state_of_size_le beyond] at goes
        cases goes
    rw [ext.state m here, ext.standing m here]
    refine ⟨next, fun q mem => (inside q mem).trans_le larger, fun t => ?_⟩
    rw [stands]
    constructor
    · rintro ⟨q, mem, inQ⟩
      exact ⟨q, mem, by rwa [ext.standing q (inside q mem)]⟩
    · rintro ⟨q, mem, inQ⟩
      rw [ext.standing q (inside q mem)] at inQ
      exact ⟨q, mem, inQ⟩

/-! ### Hubs -/

/-- A state made by merging that is entered after moves. -/
def IsHub (base g : Graph) (h : Nat) : Prop := base.size ≤ h ∧ ∃ s : Nat, (g.state s).next = some h

/-- A hub as it was made: it stands for what its links stand for. -/
structure FreshHub (base g : Graph) (sem : Standing) (h : Nat) : Prop where
  next : (g.state h).next = none
  final : (g.state h).isFinal = false
  unclosed : (g.state h).isClosed = false
  kind : (g.state h).kind = none
  links : ∀ q : Nat, q ∈ (g.state h).epsilon → q < h ∧ (q < base.size ∨ IsHub base g q)
  stands : ∀ t, t ∈ sem h ↔ ∃ q : Nat, q ∈ (g.state h).epsilon ∧ t ∈ sem q

/-- Among the states that were added only hubs have epsilon moves. -/
structure NewHubs (base g after : Graph) (semAfter : Standing) : Prop where
  old : ∀ h, IsHub base after h → h < g.size → IsHub base g h
  fresh : ∀ h, IsHub base after h → g.size ≤ h → FreshHub base after semAfter h
  bare : ∀ s : Nat, g.size ≤ s → ¬ IsHub base after s → (after.state s).epsilon = []

theorem lt_size_of_next {m n : Nat} (goes : (g.state m).next = some n) : m < g.size := by
  rcases Nat.lt_or_ge m g.size with inside | beyond
  · exact inside
  · rw [state_of_size_le beyond] at goes
    cases goes

theorem IsHub.inside {h : Nat} (hub : IsHub base g h) (rep : Represents base sem g) : h < g.size := by
  obtain ⟨_, s, goes⟩ := hub
  exact rep.next_inside goes

theorem Extends.isHub (ext : Extends g sem after semAfter) {h : Nat} (hub : IsHub base g h) :
    IsHub base after h := by
  obtain ⟨low, s, goes⟩ := hub
  exact ⟨low, s, by rwa [ext.state s (lt_size_of_next goes)]⟩

theorem NewHubs.refl (rep : Represents base sem g) : NewHubs base g g sem where
  old _ hub _ := hub
  fresh h hub beyond := absurd (hub.inside rep) (by omega)
  bare s beyond _ := by rw [state_of_size_le beyond]

theorem Extends.freshHub (ext : Extends g sem after semAfter) {h : Nat} (fresh : FreshHub base g sem h)
    (inside : h < g.size) : FreshHub base after semAfter h := by
  have state := ext.state h inside
  refine ⟨by rw [state]; exact fresh.next, by rw [state]; exact fresh.final, by rw [state]; exact fresh.unclosed,
    by rw [state]; exact fresh.kind, fun q member => ?_, fun t => ?_⟩
  · rw [state] at member
    obtain ⟨lower, original | hub⟩ := fresh.links q member
    · exact ⟨lower, .inl original⟩
    · exact ⟨lower, .inr (ext.isHub hub)⟩
  · rw [state, ext.standing h inside, fresh.stands]
    refine exists_congr fun q => and_congr_right fun member => ?_
    rw [ext.standing q ((fresh.links q member).1.trans inside)]

theorem NewHubs.trans {third : Graph} {semThird : Standing} (one : NewHubs base g after semAfter)
    (extOne : Extends g sem after semAfter)
    (extTwo : Extends after semAfter third semThird) (two : NewHubs base after third semThird) :
    NewHubs base g third semThird where
  old h hub inside := one.old h (two.old h hub (inside.trans_le extOne.size_le)) inside
  fresh h hub beyond := by
    rcases Nat.lt_or_ge h after.size with inside | late
    · exact extTwo.freshHub (one.fresh h (two.old h hub inside) beyond) inside
    · exact two.fresh h hub late
  bare s beyond notHub := by
    rcases Nat.lt_or_ge s after.size with inside | late
    · rw [extTwo.state s inside]
      exact one.bare s beyond fun hub => notHub (extTwo.isHub hub)
    · exact two.bare s late notHub

end TokenTables.Automaton.Graph
