import Mathlib
import TokenTables.Proofs.Automaton.PlainClosing

/-!
Which kinds closing finds when nothing is merged. The rounds end when no list grows, and the kinds of an epsilon circle
may not have come all the way round by then. Whatever a state finds lies behind it; it finds what it need not get from
a state that leads back to it, and what lies in a match to which its own list grows.
-/

namespace TokenTables.Automaton.Graph

open Relation (ReflTransGen)
open Kind (IsBest NoLater)

variable {base g h last : Graph} {first id : Nat} {accepted : List (StateId × Kind)}

/-- The same highest state leads to both, so both are closed with it. -/
def ClosedTogether (base : Graph) (s t : Nat) : Prop :=
  ∀ first, s ∈ base.BehindFrom first ↔ t ∈ base.BehindFrom first

/-- Epsilon moves from `s` to `f`, on the way only through states closed together with `s`. -/
inductive Early (base : Graph) (f : Nat) : Nat → Prop where
  | link {s : Nat} (edge : f ∈ (base.state s).epsilon) : Early base f s
  | step {s q : Nat} (edge : q ∈ (base.state s).epsilon) (together : ClosedTogether base s q)
      (after : Early base f q) : Early base f s

/-- The kinds of `f` get to `s` for certain. -/
inductive CarriesTo (base : Graph) (f : Nat) : Nat → Prop where
  | here : CarriesTo base f f
  | early {s : Nat} (isFinal : (base.state f).isFinal = true) (path : Early base f s) : CarriesTo base f s
  | ahead {s t : Nat} (edge : t ∈ (base.state s).epsilon) (away : ¬ Silent base t s) (after : CarriesTo base f t) :
    CarriesTo base f s

/-! ### In the last round -/

/-- A match that is reached early is in the list of a walked state. -/
theorem PlainEnd.early (ended : PlainEnd base (id + 1) g last h id) {s f : Nat} (path : Early base f s)
    (isFinal : (base.state f).isFinal = true) (walked : s ∈ last.openReach id) : f ∈ (h.state s).epsilon := by
  have matters : (last.state f).matters = true := by
    rw [ended.before.grows.matters, ended.partway.state f]
    unfold State.matters
    rw [isFinal, Bool.true_or]
  induction path with
  | @link s edge =>
    refine ended.grows.more s f ?_
    rwa [ended.partway.untouched s (ended.wasOpen walked).unclosed]
  | @step s q edge together after ih =>
    have wasOpen := ended.wasOpen walked
    have wasEdge : q ∈ (g.state s).epsilon := by
      rwa [ended.partway.untouched s wasOpen.unclosed]
    have insideQ := ended.range s q edge
    have walkedQ : q ∈ last.openReach id := by
      refine (ended.next walked wasEdge (ended.partway.size.symm ▸ insideQ)).resolve_right fun status => ?_
      have behind := (together (id + 1)).mpr ((ended.partway.closed q insideQ).mp status)
      have inside : s < base.size := ended.partway.size ▸ wasOpen.inside
      rw [← ended.partway.closed s inside, wasOpen.unclosed] at behind
      cases behind
    exact ended.settled.behind s walked q (ended.grows.more s q wasEdge) f (ih walkedQ) matters

theorem PlainEnd.early_kind (ended : PlainEnd base (id + 1) g last h id) {s f : Nat} (path : Early base f s)
    (isFinal : (base.state f).isFinal = true) (walked : s ∈ last.openReach id) :
    NoLater (h.state s).kind (base.state f).kind := by
  have found := ended.settled.kind s walked f (ended.early path isFinal walked)
  exact found.trans ((ended.before.grows.better f).trans (ended.partway.better f))

/-- What a round has come to: of an open state that does not lead back to it, a state has the kind. -/
def Ahead (base last h : Graph) (left : Set Nat) : Prop :=
  ∀ s ∈ left, ∀ t, OpenEdge last s t → ¬ Silent base t s → t ∈ left ∧ NoLater (h.state s).kind (h.state t).kind

theorem PlainEnd.ahead_walked (ended : PlainEnd base first g last h id) :
    Ahead base last (last.absorbAll (last.openReach id)).1 {s | s ∈ last.openReach id} := by
  refine @absorbAll_ordered last id (Ahead base last) ended.before.range ?_ fun s none => none.elim
  intro h s left grows range isOpen isNew order before u member t edge away
  -- A state left before `s` is not absorbed again.
  have different : t ∈ left → t ≠ s := fun inLeft same => isNew (same ▸ inLeft)
  rcases member with rfl | inLeft
  · have leftT : t ∈ left := (order t edge).resolve_right fun back => away (ended.faithfulLast.openPath back)
    refine ⟨.inr leftT, ?_⟩
    rw [absorb_state_same isOpen.inside, absorb_state_other (different leftT)]
    exact absorbed_visits range (grows.more u t edge.1)
  · obtain ⟨leftT, noLater⟩ := before u inLeft t edge away
    refine ⟨.inr leftT, ?_⟩
    rw [absorb_state_other (different leftT), absorb_state_other fun same : u = s => isNew (same ▸ inLeft)]
    exact noLater

theorem PlainEnd.ahead_kind (ended : PlainEnd base first g last (last.absorbAll (last.openReach id)).1 id) {s t : Nat}
    (walked : s ∈ last.openReach id) (edge : t ∈ (base.state s).epsilon) (away : ¬ Silent base t s) :
    NoLater ((last.absorbAll (last.openReach id)).1.state s).kind
      ((last.absorbAll (last.openReach id)).1.state t).kind := by
  have wasEdge : t ∈ (g.state s).epsilon := by
    rwa [ended.partway.untouched s (ended.wasOpen walked).unclosed]
  have inside : t < g.size := ended.partway.size.symm ▸ ended.range s t edge
  rcases ended.next walked wasEdge inside with walkedT | status
  · exact (ended.ahead_walked s walked t
      ⟨ended.before.grows.more s t wasEdge, open_of_mem_openReach walkedT⟩ away).2
  · have apart : t ∉ last.openReach id := fun member => by
      rw [(ended.wasOpen member).unclosed] at status
      cases status
    have found := ended.settled.kind s walked t (ended.grows.more s t wasEdge)
    rwa [ended.before.others t apart, ← ended.others t apart] at found

/-! ### Throughout closing -/

/-- What is certain of the kinds of closed states. -/
structure Tuned (base : Graph) (g : Graph) : Prop where
  ahead : ∀ s : Nat, (g.state s).isClosed = true → ∀ t : Nat, t ∈ (base.state s).epsilon → ¬ Silent base t s →
    NoLater (g.state s).kind (g.state t).kind
  early : ∀ s : Nat, (g.state s).isClosed = true → ∀ f : Nat, (base.state f).isFinal = true → Early base f s →
    NoLater (g.state s).kind (base.state f).kind

theorem Laid.tuned (laid : Laid g accepted) : Tuned g g where
  ahead s closed := by
    rw [laid.isOpen s] at closed
    cases closed
  early s closed := by
    rw [laid.isOpen s] at closed
    cases closed

theorem PlainEnd.tuned (ended : PlainEnd base (id + 1) g last (last.absorbAll (last.openReach id)).1 id)
    (tuned : Tuned base g) :
    Tuned base (((last.absorbAll (last.openReach id)).1.markClosed (last.openReach id)).prune id) := by
  have kind : ∀ s : Nat, ((((last.absorbAll (last.openReach id)).1.markClosed (last.openReach id)).prune id).state s).kind =
      ((last.absorbAll (last.openReach id)).1.state s).kind := fun s => prune_kind.trans (ended.marked_kind s)
  have status : ∀ {s : Nat}, s ∉ last.openReach id →
      ((((last.absorbAll (last.openReach id)).1.markClosed (last.openReach id)).prune id).state s).isClosed = true →
      (g.state s).isClosed = true := by
    intro s apart closed
    rwa [prune_state s, ended.apart apart] at closed
  refine ⟨fun s closed t edge away => ?_, fun s closed f isFinal path => ?_⟩
  all_goals rw [kind]; by_cases walked : s ∈ last.openReach id
  · rw [kind]
    exact ended.ahead_kind walked edge away
  · have closedS := status walked closed
    have apart : t ∉ last.openReach id := fun member => by
      have wasOpen := ended.wasOpen member
      have inside : s < g.size := by
        refine Nat.lt_of_not_le fun beyond => ?_
        rw [state_of_size_le beyond] at closedS
        cases closedS
      have openS := ended.partway.open_of_silent ended.range wasOpen (.single edge) (ended.partway.size ▸ inside)
      rw [openS.unclosed] at closedS
      cases closedS
    rw [kind, ended.others s walked, ended.others t apart]
    exact tuned.ahead s closedS t edge away
  · exact ended.early_kind path isFinal walked
  · rw [ended.others s walked]
    exact tuned.early s (status walked closed) f isFinal path

/-! ### In the end -/

/-- The kinds of the matches behind a state. -/
def GivenBehind (g : Graph) (accepted : List (StateId × Kind)) (s : Nat) (kind : Option Kind) : Prop :=
  ∃ f, Silent g s f ∧ Given accepted f kind

theorem Tuned.carries {f s : Nat} (tuned : Tuned base g) (partway : Partway base 0 g) (range : InRange base)
    (inside : s < base.size) (carries : CarriesTo base f s) : NoLater (g.state s).kind (base.state f).kind := by
  have closed : ∀ s, s < base.size → (g.state s).isClosed = true := fun s inside =>
    (partway.closed s inside).mpr (behindFrom_self (Nat.zero_le s) inside)
  induction carries with
  | here => exact partway.better f
  | early isFinal path => exact tuned.early _ (closed _ inside) f isFinal path
  | @ahead s t edge away after ih =>
    exact (tuned.ahead s (closed s inside) t edge away).trans (ih (range s t edge))

/-- Where no circle lies behind a state, all kinds get to it. -/
theorem carries_of_no_circle {f s : Nat} (path : Silent base s f)
    (straight : ∀ u v, Silent base s u → v ∈ (base.state u).epsilon → ¬ Silent base v u) : CarriesTo base f s := by
  induction path using ReflTransGen.head_induction_on with
  | refl => exact .here
  | @head s t edge after ih =>
    exact .ahead edge (straight s t .refl edge) (ih fun u v path => straight u v (path.head edge))

/-- Which kinds closing without merging finds. Each is that of a match behind the state, and the best one is found if
and only if nothing behind the state has found a better one. A kind that gets to the state for certain is found, or a
better one; so are all where no epsilon move leads back to where it comes from. -/
theorem completeAll_plain_kinds (made : Made g accepted) :
    let closed := g.completeAll .plain
    ∀ s, s < g.size →
      (∀ k : Nat, (closed.state s).kind = some k → ∃ f, Silent g s f ∧ (f, k) ∈ accepted) ∧
      (IsBest (closed.state s).kind (GivenBehind g accepted s) ↔
        ∀ t, Silent g s t → NoLater (closed.state s).kind (closed.state t).kind) ∧
      (∀ f k, (f, k) ∈ accepted → CarriesTo g f s → NoLater (closed.state s).kind (some k)) ∧
      ((∀ u v, Silent g s u → v ∈ (g.state u).epsilon → ¬ Silent g v u) →
        IsBest (closed.state s).kind (GivenBehind g accepted s)) := by
  intro closed s inside
  have laid := made.laid
  obtain ⟨_, whole, tuned⟩ := laid.completeAll (fun ended => ended.tuned) laid.tuned
  have found : ∀ (s k : Nat), (closed.state s).kind = some k → ∃ f, Silent g s f ∧ (f, k) ∈ accepted := by
    intro s k same
    obtain ⟨f, path, kind⟩ := whole.kind s k same
    obtain ⟨k', same', member⟩ := (laid.kind f).found k kind
    obtain rfl := Option.some.inj same'
    exact ⟨f, path, member⟩
  have given : ∀ f k, (f, k) ∈ accepted → NoLater (g.state f).kind (some k) := fun f k member =>
    (laid.kind f).first (some k) ⟨k, rfl, member⟩
  have carried : ∀ f k, (f, k) ∈ accepted → CarriesTo g f s → NoLater (closed.state s).kind (some k) :=
    fun f k member carries => (tuned.carries whole laid.range inside carries).trans (given f k member)
  have foundBehind : ∀ k : Nat, (closed.state s).kind = some k → GivenBehind g accepted s (some k) := fun k same => by
    obtain ⟨f, path, member⟩ := found s k same
    exact ⟨f, path, k, rfl, member⟩
  refine ⟨found s, ⟨fun best t path k same => ?_, fun noLater => ⟨foundBehind, ?_⟩⟩, carried, fun straight =>
    ⟨foundBehind, ?_⟩⟩
  · obtain ⟨f, further, member⟩ := found t k same
    exact best.first (some k) ⟨f, path.trans further, k, rfl, member⟩ k rfl
  · rintro _ ⟨f, path, k, rfl, member⟩
    exact (noLater f path).trans ((whole.better f).trans (given f k member))
  · rintro _ ⟨f, path, k, rfl, member⟩
    exact carried f k member (carries_of_no_circle path straight)

/-- Four states for the empty text, the first two an epsilon circle. -/
def leakyCircle : Graph :=
  let build := fun g : Graph => (g.build bareSettings (.sequence .unknown [])).graph
  let states := build (build (build (build {})))
  ((((states.linkEpsilon 1 0).linkEpsilon 0 1).linkEpsilon 1 2).linkEpsilon 2 3).acceptAt 3 7

/-- The kind behind the circle is found by the state that leads out of it, but not by the other one. -/
theorem leakyCircle_kinds : Made leakyCircle [(3, 7)] ∧ ((leakyCircle.completeAll .plain).state 1).kind = some 7 ∧
    Silent leakyCircle 0 3 ∧ ((leakyCircle.completeAll .plain).state 0).kind = none := by
  have made : Made leakyCircle [(3, 7)] := by
    refine .accept (.link (.link (.link (.link ?_ ?_ ?_) ?_ ?_) ?_ ?_) ?_ ?_) ?_
    · exact .build (.build (.build (.build .empty _ _) _ _) _ _) _ _
    all_goals decide
  -- Behind the state that leads out of the circle there is only the match.
  have straight : ∀ {s x : Nat}, Silent leakyCircle s x → 2 ≤ s → s ≤ x := by
    intro s x path low
    induction path using ReflTransGen.head_induction_on with
    | refl => exact Nat.le_refl _
    | @head s q edge _ ih =>
      have inside : s < 4 := lt_size_of_mem_epsilon edge
      obtain rfl | rfl : s = 2 ∨ s = 3 := by omega
      · have only : (leakyCircle.state 2).epsilon = [3] := by rfl
        rw [only, List.mem_singleton] at edge
        have := ih (by omega)
        omega
      · have none : (leakyCircle.state 3).epsilon = [] := by rfl
        rw [none] at edge
        cases edge
  have carries : CarriesTo leakyCircle 3 1 :=
    .ahead (t := 2) (by decide) (fun back => absurd (straight back (by omega)) (by omega))
      (.ahead (t := 3) (by decide) (fun back => absurd (straight back (by omega)) (by omega)) .here)
  have silent : Silent leakyCircle 0 3 :=
    .head (b := 1) (by decide) (.head (b := 2) (by decide) (.single (by decide)))
  obtain ⟨found, _, carried, _⟩ := completeAll_plain_kinds made 1 (by decide)
  obtain ⟨k, _, same⟩ := carried 3 7 List.mem_cons_self carries 7 rfl
  obtain ⟨f, _, member⟩ := found k same
  obtain ⟨rfl, rfl⟩ := Prod.mk.inj (List.mem_singleton.mp member)
  refine ⟨made, same, silent, ?_⟩
  cbv

end TokenTables.Automaton.Graph
