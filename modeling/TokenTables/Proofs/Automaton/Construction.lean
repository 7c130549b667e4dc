import TokenTables.Proofs.Automaton.Shape

/-!
How fragments grow a graph: what each way of putting fragments together does to the states that were there
and to the shape of the new ones.
-/

namespace TokenTables

/-- A number above all others goes to the end. -/
theorem insertNat_above {x : Nat} {xs : List Nat} (above : ∀ y ∈ xs, y < x) : insertNat x xs = xs ++ [x] := by
  induction xs with
  | nil => rfl
  | cons y rest ih =>
    have here := above y List.mem_cons_self
    have other : (x == y) = false := by simp; omega
    have large : Nat.ble x y = false := by
      rw [Bool.eq_false_iff]
      intro le
      have := Nat.ble_eq.mp le
      omega
    have later := ih fun z member => above z (List.mem_cons_of_mem _ member)
    unfold insertNat insertOrdered
    simp only [other, large, Bool.false_eq_true, if_false, List.cons_append]
    exact congrArg (y :: ·) later

namespace Automaton.Graph

/-- Nothing but edges: no kind, no name, not closed. -/
def Unmarked (s : State) : Prop := s = { moves := s.moves, next := s.next, epsilon := s.epsilon }

/-- States are only added, and the added ones are unmarked. -/
structure Grown (before after : Graph) : Prop where
  size_le : before.size ≤ after.size
  kept : ∀ s : Nat, s < before.size → after.state s = before.state s
  fresh : ∀ s : Nat, before.size ≤ s → s < after.size → Unmarked (after.state s)
  frame : { after with states := #[] } = { before with states := #[] }

variable {g before after : Graph} {stop : Nat} {texts : Language Char}

theorem Grown.refl : Grown g g where
  size_le := Nat.le_refl _
  kept _ _ := rfl
  fresh s low high := by omega
  frame := rfl

theorem Grown.trans {first second third : Graph} (one : Grown first second) (two : Grown second third) :
    Grown first third where
  size_le := Nat.le_trans one.size_le two.size_le
  kept s low := (two.kept s (Nat.lt_of_lt_of_le low one.size_le)).trans (one.kept s low)
  fresh s low high := by
    rcases Nat.lt_or_ge s second.size with early | late
    · rw [two.kept s early]
      exact one.fresh s low early
    · exact two.fresh s late high
  frame := two.frame.trans one.frame

theorem Grown.addState {s : State} (blank : Unmarked s) : Grown g (g.addState s) where
  size_le := by simp
  kept id low := by
    rw [state_addState, if_neg (Nat.ne_of_lt low)]
  fresh id low high := by
    rw [size_addState] at high
    have last : id = g.size := by omega
    rw [state_addState, if_pos last]
    exact blank
  frame := rfl

/-- Only edges of new states change. -/
theorem Grown.alter {id : Nat} {change : State → State} (grown : Grown before after) (new : before.size ≤ id)
    (blank : ∀ s, Unmarked s → Unmarked (change s)) : Grown before (after.alter id change) where
  size_le := by rw [size_alter]; exact grown.size_le
  kept s low := by
    rw [state_alter_other (by omega)]
    exact grown.kept s low
  fresh s low high := by
    rw [size_alter] at high
    by_cases same : s = id
    · subst same
      rw [state_alter_same high]
      exact blank _ (grown.fresh s low high)
    · rw [state_alter_other same]
      exact grown.fresh s low high
  frame := grown.frame

theorem unmarked_blank : Unmarked {} := rfl

theorem Grown.linkEpsilon {source target : Nat} (grown : Grown before after) (new : before.size ≤ source) :
    Grown before (after.linkEpsilon source target) := by
  refine grown.alter new fun s blank => ?_
  unfold Unmarked at blank ⊢
  rw [blank]

/-- The states added to `before` are a fragment from the first of them to `stop`, which leads nowhere yet. -/
structure Constructed (before after : Graph) (stop : Nat) (texts : Language Char) : Prop where
  grown : Grown before after
  shape : Shape after before.size stop after.size texts
  loose : (after.state stop).epsilon = []

theorem Constructed.stop_bounds (made : Constructed before after stop texts) :
    before.size ≤ stop ∧ stop < after.size :=
  ⟨made.shape.enclosed.start_le, made.shape.enclosed.stop_lt⟩

/-- A shape stays as it is when the graph grows. -/
theorem Shape.grown {start past : Nat} (shape : Shape before start stop past texts) (grown : Grown before after)
    (inside : past ≤ before.size) : Shape after start stop past texts := by
  have stopLt := shape.enclosed.stop_lt
  have same : ∀ s : Nat, s < past → after.state s = before.state s := fun s high => grown.kept s (by omega)
  refine shape.congr (fun s _ high _ => ?_) ?_ ?_
  · rw [same s high]
    exact ⟨rfl, rfl, rfl⟩
  · rw [same stop stopLt]
  · rw [same stop stopLt]

/-- A link out of a state changes its epsilon moves only. -/
theorem state_linkEpsilon_edges {source target s : Nat} :
    ((g.linkEpsilon source target).state s).moves = (g.state s).moves ∧
      ((g.linkEpsilon source target).state s).next = (g.state s).next := by
  rw [Graph.linkEpsilon, state_alter]
  split
  · rename_i same
    rw [same.1]
    exact ⟨rfl, rfl⟩
  · exact ⟨rfl, rfl⟩

theorem Shape.linkEpsilon {start past source target : Nat} (shape : Shape g start stop past texts)
    (away : source < start ∨ past ≤ source ∨ source = stop) :
    Shape (g.linkEpsilon source target) start stop past texts := by
  refine shape.congr (fun s low high inner => ?_) state_linkEpsilon_edges.1 state_linkEpsilon_edges.2
  rw [state_linkEpsilon_other (by omega)]
  exact ⟨rfl, rfl, rfl⟩

theorem Idle.linkEpsilon {source target s : Nat} (idle : Idle (g.state s)) :
    Idle ((g.linkEpsilon source target).state s) :=
  ⟨state_linkEpsilon_edges.1.trans idle.moves, state_linkEpsilon_edges.2.trans idle.next⟩

/-- One fragment and then another. -/
theorem Constructed.join {middle : Graph} {mid : Nat} {first second : Language Char}
    (one : Constructed before middle mid first) (two : Constructed middle after stop second) :
    Constructed before (after.linkEpsilon mid middle.size) stop (first * second) := by
  obtain ⟨midLow, midHigh⟩ := one.stop_bounds
  obtain ⟨stopLow, stopHigh⟩ := two.stop_bounds
  have midSame : after.state mid = middle.state mid := two.grown.kept mid midHigh
  have link : ((after.linkEpsilon mid middle.size).state mid).epsilon = [middle.size] := by
    rw [state_linkEpsilon_same (by omega), midSame, one.loose]
    rfl
  refine ⟨(one.grown.trans two.grown).linkEpsilon midLow, ?_, ?_⟩
  · have firstShape : Shape (after.linkEpsilon mid middle.size) before.size mid middle.size first :=
      (one.shape.grown two.grown (Nat.le_refl _)).linkEpsilon (.inr (.inr rfl))
    have secondShape : Shape (after.linkEpsilon mid middle.size) middle.size stop after.size second :=
      two.shape.linkEpsilon (.inl midHigh)
    rw [size_linkEpsilon]
    exact .join firstShape link secondShape
  · rw [state_linkEpsilon_other (by omega)]
    exact two.loose

/-! ### Forks -/

/-- A fork with some of its pieces in place. -/
structure Forked (base g : Graph) (skippable repeatable : Bool) (pieces : List Piece) : Prop where
  grown : Grown base g
  idle : Idle (g.state base.size)
  stopIdle : Idle (g.state (base.size + 1))
  loose : (g.state (base.size + 1)).epsilon = []
  ahead : (g.state base.size).epsilon = (if skippable then [base.size + 1] else []) ++ pieces.map Piece.start
  row : Consecutive (base.size + 2) pieces g.size
  each : ∀ p ∈ pieces, Shape g p.start p.stop p.past p.texts
  back : ∀ p ∈ pieces, (g.state p.stop).epsilon = (base.size + 1) :: if repeatable then [p.start] else []

theorem Forked.begin {base : Graph} {repeatable : Bool} :
    Forked base ((base.addState {}).addState {}) false repeatable [] where
  grown := (Grown.addState unmarked_blank).trans (Grown.addState unmarked_blank)
  idle := by simp; exact ⟨rfl, rfl⟩
  stopIdle := by simp; exact ⟨rfl, rfl⟩
  loose := by simp
  ahead := by simp
  row := by simp [Consecutive]
  each p member := by cases member
  back p member := by cases member

theorem Forked.constructed {base : Graph} {skippable repeatable : Bool} {pieces : List Piece}
    (forked : Forked base g skippable repeatable pieces) :
    Constructed base g (base.size + 1) (forkTexts skippable repeatable pieces) :=
  ⟨forked.grown, .fork forked.idle forked.stopIdle forked.ahead forked.row forked.each forked.back,
    forked.loose⟩

theorem Consecutive.snoc {place past : Nat} {pieces : List Piece} {p : Piece}
    (row : Consecutive place pieces p.start) (last : p.past = past) :
    Consecutive place (pieces ++ [p]) past := by
  induction pieces generalizing place with
  | nil => exact ⟨row.symm, last⟩
  | cons q rest ih => exact ⟨row.1, ih row.2⟩

/-- One more piece of a fork, built and linked at both ends. -/
theorem Forked.add {base linked : Graph} {entered skippable repeatable : Bool} {pieces : List Piece}
    (forked : Forked base before entered repeatable pieces) (made : Constructed before after stop texts)
    (grown : Grown base linked) (size : linked.size = after.size)
    (start : linked.state base.size = { after.state base.size with
      epsilon := (if skippable then [base.size + 1] else []) ++ pieces.map Piece.start ++ [before.size] })
    (ends : linked.state stop = { after.state stop with
      epsilon := (base.size + 1) :: if repeatable then [before.size] else [] })
    (others : ∀ s : Nat, s ≠ base.size → s ≠ stop → linked.state s = after.state s) :
    Forked base linked skippable repeatable (pieces ++ [⟨before.size, stop, after.size, texts⟩]) := by
  obtain ⟨stopLow, stopHigh⟩ := made.stop_bounds
  have proper : ∀ p ∈ pieces, p.start ≤ p.past := fun p member =>
    ((forked.each p member).enclosed.start_le.trans_lt (forked.each p member).enclosed.stop_lt).le
  have room := forked.row.le proper
  have startSame : after.state base.size = before.state base.size := made.grown.kept _ (by omega)
  have stopSame : after.state (base.size + 1) = before.state (base.size + 1) := made.grown.kept _ (by omega)
  have pieceSame : ∀ p ∈ pieces, ∀ s : Nat, p.start ≤ s → s < p.past → linked.state s = before.state s := by
    intro p member s low high
    have := forked.row.within proper member
    rw [others s (by omega) (by omega)]
    exact made.grown.kept s (by omega)
  refine ⟨grown, ?_, ?_, ?_, ?_, ?_, fun p member => ?_, fun p member => ?_⟩
  · rw [start, startSame]
    exact ⟨forked.idle.moves, forked.idle.next⟩
  · rw [others _ (by omega) (by omega), stopSame]
    exact forked.stopIdle
  · rw [others _ (by omega) (by omega), stopSame]
    exact forked.loose
  · rw [start, List.map_append, ← List.append_assoc]
    rfl
  · rw [size]
    exact forked.row.snoc rfl
  · rcases List.mem_append.mp member with old | new
    · refine (forked.each p old).congr (fun s low high _ => ?_) ?_ ?_
      · rw [pieceSame p old s low high]
        exact ⟨rfl, rfl, rfl⟩
      all_goals
        rw [pieceSame p old p.stop (forked.each p old).enclosed.start_le (forked.each p old).enclosed.stop_lt]
    · obtain rfl := List.mem_singleton.mp new
      refine made.shape.congr (fun s low high inner => ?_) ?_ ?_
      · rw [others s (by omega) inner]
        exact ⟨rfl, rfl, rfl⟩
      all_goals rw [ends]
  · rcases List.mem_append.mp member with old | new
    · rw [pieceSame p old p.stop (forked.each p old).enclosed.start_le (forked.each p old).enclosed.stop_lt]
      exact forked.back p old
    · obtain rfl := List.mem_singleton.mp new
      rw [ends]

/-- The links of a piece of a fork whose start state is `fork` and whose stop state comes after it. -/
def linkPiece (g : Graph) (fork : Nat) (skippable repeatable : Bool) (start stop : Nat) : Graph :=
  let g := g.linkEpsilon fork start
  let g := if skippable then g.linkEpsilon fork (fork + 1) else g
  let g := g.linkEpsilon stop (fork + 1)
  if repeatable then g.linkEpsilon stop start else g

theorem size_linkPiece {fork start : Nat} {skippable repeatable : Bool} :
    (g.linkPiece fork skippable repeatable start stop).size = g.size := by
  unfold linkPiece
  cases skippable <;> cases repeatable <;> simp

theorem state_linkPiece_other {fork start s : Nat} {skippable repeatable : Bool} (notFork : s ≠ fork)
    (notStop : s ≠ stop) : (g.linkPiece fork skippable repeatable start stop).state s = g.state s := by
  unfold linkPiece
  cases skippable <;> cases repeatable <;>
    simp [state_linkEpsilon_other notFork, state_linkEpsilon_other notStop]

theorem state_linkPiece_fork {fork start : Nat} {skippable repeatable : Bool} (inside : fork < g.size)
    (notStop : fork ≠ stop) :
    (g.linkPiece fork skippable repeatable start stop).state fork = { g.state fork with
      epsilon := if skippable then insertNat (fork + 1) (insertNat start (g.state fork).epsilon)
        else insertNat start (g.state fork).epsilon } := by
  unfold linkPiece
  cases skippable <;> cases repeatable <;>
    simp [state_linkEpsilon_other notStop, state_linkEpsilon_same, inside]

theorem state_linkPiece_stop {fork start : Nat} {skippable repeatable : Bool} (inside : stop < g.size)
    (notFork : stop ≠ fork) :
    (g.linkPiece fork skippable repeatable start stop).state stop = { g.state stop with
      epsilon := if repeatable then insertNat start (insertNat (fork + 1) (g.state stop).epsilon)
        else insertNat (fork + 1) (g.state stop).epsilon } := by
  unfold linkPiece
  cases skippable <;> cases repeatable <;>
    simp [state_linkEpsilon_other notFork, state_linkEpsilon_same, inside]

theorem Grown.linkPiece {fork start : Nat} {skippable repeatable : Bool} (grown : Grown before after)
    (newFork : before.size ≤ fork) (newStop : before.size ≤ stop) :
    Grown before (after.linkPiece fork skippable repeatable start stop) := by
  unfold Graph.linkPiece
  cases skippable <;> cases repeatable
  · exact (grown.linkEpsilon newFork).linkEpsilon newStop
  · exact ((grown.linkEpsilon newFork).linkEpsilon newStop).linkEpsilon newStop
  · exact ((grown.linkEpsilon newFork).linkEpsilon newFork).linkEpsilon newStop
  · exact (((grown.linkEpsilon newFork).linkEpsilon newFork).linkEpsilon newStop).linkEpsilon newStop

/-- A fork takes in one more piece; it is made skippable with the first one only. -/
theorem Forked.link {base : Graph} {repeatable : Bool} {pieces : List Piece} (skippable : Bool)
    (forked : Forked base before false repeatable pieces) (made : Constructed before after stop texts)
    (first : skippable = true → pieces = []) :
    Forked base (after.linkPiece base.size skippable repeatable before.size stop) skippable repeatable
      (pieces ++ [⟨before.size, stop, after.size, texts⟩]) := by
  obtain ⟨stopLow, stopHigh⟩ := made.stop_bounds
  have proper : ∀ p ∈ pieces, p.start < p.past := fun p member =>
    (forked.each p member).enclosed.start_le.trans_lt (forked.each p member).enclosed.stop_lt
  have room := forked.row.le fun p member => (proper p member).le
  have startSame : after.state base.size = before.state base.size := made.grown.kept _ (by omega)
  have starts : insertNat before.size (after.state base.size).epsilon =
      pieces.map Piece.start ++ [before.size] := by
    rw [startSame, forked.ahead]
    refine insertNat_above fun y member => ?_
    obtain ⟨p, piece, rfl⟩ := List.mem_map.mp member
    have := forked.row.within (fun p member => (proper p member).le) piece
    have := proper p piece
    omega
  refine forked.add made ((forked.grown.trans made.grown).linkPiece (Nat.le_refl _) (by omega)) size_linkPiece ?_ ?_
    fun s notFork notStop => state_linkPiece_other notFork notStop
  · rw [state_linkPiece_fork (by omega) (by omega), starts]
    cases skippable with
    | false => rfl
    | true =>
      rw [first rfl]
      have under : (base.size + 1 == before.size) = false := by simp; omega
      have le : Nat.ble (base.size + 1) before.size = true := Nat.ble_eq.mpr (by omega)
      simp [insertNat, insertOrdered, under, le]
  · rw [state_linkPiece_stop stopHigh (by omega), made.loose]
    cases repeatable with
    | false => rfl
    | true =>
      have above : ∀ y ∈ insertNat (base.size + 1) [], y < before.size := by
        intro y member
        obtain rfl := List.mem_singleton.mp member
        omega
      rw [if_pos rfl, insertNat_above above]
      rfl

end Automaton.Graph

end TokenTables
