import TokenTables.Proofs.Automaton.Meaning

/-!
What is open when a state is closed, states made later having been closed before. If an epsilon circle is among it,
the circle is a piece of a loop: it is left through one gate only, behind which epsilon moves lead down to earlier
states or to closed ones.
-/

namespace TokenTables.Automaton.Graph

/-- The states behind `first` and all states made after it. -/
def BehindFrom (g : Graph) (first : Nat) : Set Nat := {s | ∃ j, first ≤ j ∧ j < g.size ∧ Silent g j s}

variable {g : Graph} {first id start stop past : Nat} {texts : Language Char}

theorem BehindFrom.step {s t : Nat} (behind : s ∈ g.BehindFrom first) (edge : t ∈ (g.state s).epsilon) :
    t ∈ g.BehindFrom first := by
  obtain ⟨j, le, inside, path⟩ := behind
  exact ⟨j, le, inside, path.tail edge⟩

theorem behindFrom_self {s : Nat} (le : first ≤ s) (inside : s < g.size) : s ∈ g.BehindFrom first :=
  ⟨s, le, inside, .refl⟩

/-- How states lie about a gate: inner states lead to each other and to the gate, outer ones down or to closed states.
No more is asked of the outer state `exit`. -/
structure Passage (g : Graph) (closed : Set Nat) (exit : Option Nat) (id gate : Nat) (inner outer : Set Nat) :
    Prop where
  root : id ∈ inner ∨ id = gate
  innerOpen : ∀ s ∈ inner, s ∉ closed
  innerEdge : ∀ s ∈ inner, ∀ t ∈ (g.state s).epsilon, t ∈ inner ∨ t = gate
  gateOuter : gate ∈ outer
  apart : ∀ s ∈ outer, s ∉ inner
  outerEdge : ∀ s ∈ outer, exit ≠ some s → ∀ t ∈ (g.state s).epsilon, t ∈ closed ∨ (t ∈ outer ∧ t < s)

/-- A state by itself, if its edges lead to closed states. -/
theorem Passage.single {closed : Set Nat} {exit : Option Nat}
    (edges : exit ≠ some id → ∀ t ∈ (g.state id).epsilon, t ∈ closed) : Passage g closed exit id id ∅ {id} where
  root := .inr rfl
  innerOpen s member := nomatch member
  innerEdge s member := nomatch member
  gateOuter := rfl
  apart s _ member := nomatch member
  outerEdge s member notExit t edge := by
    obtain rfl : s = id := member
    exact .inl (edges notExit t edge)

/-- A passage inside a fragment, which its stop state may leave. -/
structure Inside (g : Graph) (id start stop past gate : Nat) (inner outer : Set Nat) : Prop
    extends Passage g (g.BehindFrom (id + 1)) (some stop) id gate inner outer where
  within : ∀ s, s ∈ inner ∨ s ∈ outer → start ≤ s ∧ s < past
  stopOuter : stop ∉ inner

theorem Inside.single (low : start ≤ id) (high : id < past)
    (edges : id ≠ stop → ∀ t ∈ (g.state id).epsilon, t ∈ g.BehindFrom (id + 1)) :
    Inside g id start stop past id ∅ {id} where
  toPassage := .single fun notStop => edges fun same => notStop (same ▸ rfl)
  within s member := by
    obtain rfl : s = id := member.resolve_left fun none => none
    exact ⟨low, high⟩
  stopOuter member := member

/-- Edges into an interval of states lead to its first state, those from `stop` too. -/
def EnteredAtStart (g : Graph) (start stop past : Nat) : Prop :=
  ∀ s t : Nat, t ∈ (g.state s).epsilon → start ≤ t → t < past → s < start ∨ past ≤ s ∨ s = stop → t = start

/-- A path into an interval comes through its first state. -/
theorem EnteredAtStart.through (entry : EnteredAtStart g start stop past) {s t : Nat} (path : Silent g s t)
    (out : s < start ∨ past ≤ s) (low : start ≤ t) (high : t < past) : Silent g s start := by
  induction path with
  | refl => omega
  | @tail q t _ edge ih =>
    by_cases inside : start ≤ q ∧ q < past
    · exact ih inside.1 inside.2
    · rw [← entry q t edge low high (by omega)]
      exact .tail ‹_› edge

/-! ### Rows of pieces -/

theorem Consecutive.apart {place : Nat} {pieces : List Piece} {p q : Piece} (row : Consecutive place pieces past)
    (proper : ∀ p ∈ pieces, p.start ≤ p.past) (inP : p ∈ pieces) (inQ : q ∈ pieces) :
    p = q ∨ p.past ≤ q.start ∨ q.past ≤ p.start := by
  induction pieces generalizing place with
  | nil => cases inP
  | cons first rest ih =>
    obtain ⟨_, others⟩ := row
    have properRest : ∀ p ∈ rest, p.start ≤ p.past := fun p there => proper p (List.mem_cons_of_mem _ there)
    rcases List.mem_cons.mp inP with rfl | laterP <;> rcases List.mem_cons.mp inQ with rfl | laterQ
    · exact .inl rfl
    · exact .inr (.inl (others.within properRest laterQ).1)
    · exact .inr (.inr (others.within properRest laterP).1)
    · exact ih others properRest laterP laterQ

theorem Consecutive.last {place : Nat} {pieces : List Piece} (row : Consecutive place pieces past) :
    past = place ∨ ∃ p ∈ pieces, p.past = past := by
  induction pieces generalizing place with
  | nil => exact .inl (Eq.symm row)
  | cons first rest ih =>
    obtain ⟨_, others⟩ := row
    rcases ih others with same | ⟨p, member, same⟩
    · exact .inr ⟨first, List.mem_cons_self, same.symm⟩
    · exact .inr ⟨p, List.mem_cons_of_mem _ member, same⟩

/-! ### Fragments -/

/-- The last state of a fragment leads to its stop. -/
theorem Shape.last_silent (shape : Shape g start stop past texts) : Silent g (past - 1) stop := by
  induction shape with
  | nothing => exact .refl
  | char _ _ _ _ ih => exact ih
  | join _ _ _ _ ihAfter => exact ihAfter
  | @fork start past skippable repeatable pieces idle stopIdle ahead row each back ih =>
    rcases row.last with same | ⟨p, member, same⟩
    · rw [same]
      exact .refl
    · rw [← same]
      refine (ih p member).tail ?_
      rw [back p member]
      exact List.mem_cons_self

/-- The pieces of a fork are entered at their starts. -/
theorem fork_entered {skippable repeatable : Bool} {pieces : List Piece}
    (ahead : (g.state start).epsilon = (if skippable then [start + 1] else []) ++ pieces.map Piece.start)
    (row : Consecutive (start + 2) pieces past) (each : ∀ p ∈ pieces, Shape g p.start p.stop p.past p.texts)
    (back : ∀ p ∈ pieces, (g.state p.stop).epsilon = (start + 1) :: if repeatable then [p.start] else [])
    (entry : EnteredAtStart g start (start + 1) past) {q : Piece} (member : q ∈ pieces) :
    EnteredAtStart g q.start q.stop q.past := by
  intro s t edge low high out
  have proper : ∀ p ∈ pieces, p.start ≤ p.past := fun p there =>
    ((each p there).enclosed.start_le.trans_lt (each p there).enclosed.stop_lt).le
  have within := row.within proper member
  rcases Nat.lt_or_ge s start with below | above
  · have := entry s t edge (by omega) (by omega) (.inl below)
    omega
  rcases Nat.lt_or_ge s past with inside | beyond
  · by_cases atStart : s = start
    · rw [atStart, ahead] at edge
      rcases List.mem_append.mp edge with skip | into
      · split at skip
        · rw [List.mem_singleton] at skip
          omega
        · cases skip
      · obtain ⟨p, there, rfl⟩ := List.mem_map.mp into
        have enclosed := (each p there).enclosed
        have := enclosed.start_le
        have := enclosed.stop_lt
        rcases row.apart proper there member with rfl | before | after
        · rfl
        all_goals omega
    by_cases atStop : s = start + 1
    · have := entry s t edge (by omega) (by omega) (.inr (.inr atStop))
      omega
    obtain ⟨p, there, lowP, highP⟩ := row.covers (s := s) (by omega) inside
    have := (each p there).enclosed.start_le
    have := (each p there).enclosed.stop_lt
    by_cases leaves : s = p.stop
    · rw [leaves, back p there] at edge
      rcases List.mem_cons.mp edge with rfl | again
      · omega
      · split at again
        · rw [List.mem_singleton] at again
          rcases row.apart proper there member with rfl | before | after
          · exact again
          all_goals omega
        · cases again
    · have := (each p there).enclosed.epsilon s lowP highP leaves t edge
      rcases row.apart proper there member with rfl | before | after
      · omega
      all_goals omega
  · have := entry s t edge (by omega) (by omega) (.inr (.inl beyond))
    omega

/-- A piece that can be repeated and is not closed yet is the circle before the gate. -/
theorem Inside.circle {join : Nat} (shape : Shape g start stop past texts) (entry : EnteredAtStart g start stop past)
    (back : (g.state stop).epsilon = [join, start]) (size : past ≤ g.size) (low : start ≤ id) (high : id < past)
    (isOpen : start ∉ g.BehindFrom (id + 1)) {lower upper : Nat} (le : lower ≤ join) (lt : join < start)
    (upper_le : past ≤ upper) : Inside g id lower join upper join {s | start ≤ s ∧ s < past} {join} := by
  have enclosed := shape.enclosed
  have first := enclosed.start_le
  have last := enclosed.stop_lt
  -- From a later state of the piece its start would have been closed.
  have atEnd : past ≤ id + 1 := by
    by_contra later
    refine isOpen ⟨past - 1, by omega, by omega, shape.last_silent.tail ?_⟩
    rw [back]
    exact List.mem_cons_of_mem _ List.mem_cons_self
  refine { root := .inl ⟨low, high⟩, innerOpen := ?_, innerEdge := ?_, gateOuter := rfl, apart := ?_, outerEdge := ?_,
           within := ?_, stopOuter := ?_ }
  · rintro s ⟨lowS, highS⟩ ⟨j, le, inside, path⟩
    exact isOpen ⟨j, le, inside, entry.through path (.inr (by omega)) lowS highS⟩
  · rintro s ⟨lowS, highS⟩ t edge
    by_cases leaves : s = stop
    · rw [leaves, back] at edge
      rcases List.mem_cons.mp edge with rfl | again
      · exact .inr rfl
      · rw [List.mem_singleton.mp again]
        exact .inl ⟨Nat.le_refl _, by omega⟩
    · obtain ⟨above, below⟩ := enclosed.epsilon s lowS highS leaves t edge
      exact .inl ⟨above.le, below⟩
  · rintro s rfl ⟨above, _⟩
    omega
  · rintro s rfl notExit
    exact absurd rfl notExit
  · rintro s (⟨above, below⟩ | rfl)
    · omega
    · omega
  · rintro ⟨above, _⟩
    omega

/-- Each state of a fragment has its passage. -/
theorem Shape.inside (shape : Shape g start stop past texts) (entry : EnteredAtStart g start stop past)
    (size : past ≤ g.size) (low : start ≤ id) (high : id < past) :
    ∃ gate inner outer, Inside g id start stop past gate inner outer := by
  induction shape with
  | @nothing only idle =>
    obtain rfl : id = only := by omega
    exact ⟨_, _, _, .single low high fun notStop => absurd rfl notStop⟩
  | @char start stop past texts bare valid goes after ih =>
    rcases Nat.eq_or_lt_of_le low with rfl | later
    · refine ⟨_, _, _, .single low high fun _ t edge => ?_⟩
      rw [bare] at edge
      cases edge
    · have entryAfter : EnteredAtStart g (start + 1) stop past := by
        intro s t edge lowT highT out
        by_cases atStart : s = start
        · rw [atStart, bare] at edge
          cases edge
        · have := entry s t edge (by omega) highT (by omega)
          omega
      obtain ⟨gate, inner, outer, inside⟩ := ih entryAfter size later high
      refine ⟨gate, inner, outer, inside.toPassage, fun s member => ?_, inside.stopOuter⟩
      have := inside.within s member
      omega
  | @join start mid stop middle past first second before link after ihBefore ihAfter =>
    have startMid := before.enclosed.start_le
    have midMiddle := before.enclosed.stop_lt
    have middleStop := after.enclosed.start_le
    have stopPast := after.enclosed.stop_lt
    rcases Nat.lt_or_ge id middle with early | late
    · have entryBefore : EnteredAtStart g start mid middle := by
        intro s t edge lowT highT out
        by_cases atMid : s = mid
        · rw [atMid, link, List.mem_singleton] at edge
          omega
        by_cases inAfter : middle ≤ s ∧ s < past ∧ s ≠ stop
        · have := after.enclosed.epsilon s inAfter.1 inAfter.2.1 inAfter.2.2 t edge
          omega
        · exact entry s t edge lowT (by omega) (by omega)
      obtain ⟨gate, inner, outer, inside⟩ := ihBefore entryBefore (by omega) low early
      refine ⟨gate, inner, outer, { inside.toPassage with outerEdge := ?_ }, fun s member => ?_, fun member => ?_⟩
      · intro s member _ t edge
        by_cases leaves : s = mid
        · rw [leaves, link, List.mem_singleton] at edge
          rw [edge]
          exact .inl (behindFrom_self early (by omega))
        · exact inside.outerEdge s member (fun same => leaves (Option.some.inj same).symm) t edge
      · have := inside.within s member
        omega
      · have := inside.within stop (.inl member)
        omega
    · have entryAfter : EnteredAtStart g middle stop past := by
        intro s t edge lowT highT out
        by_cases atMid : s = mid
        · rw [atMid, link, List.mem_singleton] at edge
          exact edge
        by_cases inBefore : start ≤ s ∧ s < middle
        · have := before.enclosed.epsilon s inBefore.1 inBefore.2 atMid t edge
          omega
        · have := entry s t edge (by omega) highT (by omega)
          omega
      obtain ⟨gate, inner, outer, inside⟩ := ihAfter entryAfter size late high
      refine ⟨gate, inner, outer, inside.toPassage, fun s member => ?_, inside.stopOuter⟩
      have := inside.within s member
      omega
  | @fork start past skippable repeatable pieces idle stopIdle ahead row each back ih =>
    have proper : ∀ p ∈ pieces, p.start ≤ p.past := fun p member =>
      ((each p member).enclosed.start_le.trans_lt (each p member).enclosed.stop_lt).le
    have room := row.le proper
    rcases Nat.eq_or_lt_of_le low with rfl | later
    · refine ⟨_, _, _, .single low high fun _ t edge => behindFrom_self ?_ ?_⟩
      all_goals
        rw [ahead] at edge
        rcases List.mem_append.mp edge with skip | into
      · split at skip
        · rw [List.mem_singleton.mp skip]
        · cases skip
      · obtain ⟨p, member, rfl⟩ := List.mem_map.mp into
        have := row.within proper member
        omega
      · split at skip
        · rw [List.mem_singleton.mp skip]
          omega
        · cases skip
      · obtain ⟨p, member, rfl⟩ := List.mem_map.mp into
        have := row.within proper member
        have := (each p member).enclosed.start_le
        have := (each p member).enclosed.stop_lt
        omega
    rcases Nat.eq_or_lt_of_le later with rfl | inPiece
    · exact ⟨_, _, _, .single low high fun notStop => absurd rfl notStop⟩
    obtain ⟨q, member, lowQ, highQ⟩ := row.covers inPiece high
    have within := row.within proper member
    have pieceEntry := fork_entered ahead row each back entry member
    by_cases circle : repeatable = true ∧ q.start ∉ g.BehindFrom (id + 1)
    · have backQ : (g.state q.stop).epsilon = [start + 1, q.start] := by
        rw [back q member, circle.1]
        rfl
      exact ⟨_, _, _, .circle (each q member) pieceEntry backQ (by omega) lowQ highQ circle.2 (by omega) (by omega)
        (by omega)⟩
    · obtain ⟨gate, inner, outer, inside⟩ := ih q member pieceEntry (by omega) lowQ highQ
      refine ⟨gate, inner, insert (start + 1) outer, { inside.toPassage with
        gateOuter := .inr inside.gateOuter, apart := ?_, outerEdge := ?_ }, fun s there => ?_, fun there => ?_⟩
      · rintro s (rfl | there) inInner
        · have := inside.within _ (.inl inInner)
          omega
        · exact inside.apart s there inInner
      · rintro s (rfl | there) notExit t edge
        · exact absurd rfl notExit
        by_cases leaves : s = q.stop
        · have first := (each q member).enclosed.start_le
          have lower : start + 1 < q.stop := by omega
          rw [leaves] at edge ⊢
          rw [back q member] at edge
          rcases List.mem_cons.mp edge with rfl | again
          · exact .inr ⟨.inl rfl, lower⟩
          · split at again
            · rename_i repeats
              rw [List.mem_singleton.mp again]
              exact .inl (by_contra fun isOpen => circle ⟨repeats, isOpen⟩)
            · cases again
        · refine (inside.outerEdge s there (fun same => leaves (Option.some.inj same).symm) t edge).imp_right ?_
          exact fun ⟨inOuter, lower⟩ => ⟨.inr inOuter, lower⟩
      · rcases there with inInner | rfl | inOuter
        · have := inside.within s (.inl inInner)
          omega
        · omega
        · have := inside.within s (.inr inOuter)
          omega
      · have := inside.within _ (.inl there)
        omega

/-! ### Rules -/

/-- The passage of a state in the graph of rules. -/
structure Gateway (g : Graph) (id gate : Nat) (inner outer : Set Nat) : Prop
    extends Passage g (g.BehindFrom (id + 1)) none id gate inner outer where
  inside : ∀ s, s ∈ inner ∨ s ∈ outer → s < g.size
  notFinal : ∀ s ∈ inner, (g.state s).isFinal = false

theorem Ruled.entered {rules : List RulePiece} (ruled : Ruled g rules) {p : RulePiece} (member : p ∈ rules) :
    EnteredAtStart g p.start p.stop p.past := by
  intro s t edge low high out
  have within := ruled.within member
  have apart : ∀ q ∈ rules, q.toPiece = p.toPiece ∨ q.past ≤ p.start ∨ p.past ≤ q.start := fun q there =>
    ruled.row.apart ruled.proper (List.mem_map.mpr ⟨q, there, rfl⟩) (List.mem_map.mpr ⟨p, member, rfl⟩)
  rcases Nat.eq_zero_or_pos s with rfl | positive
  · rw [ruled.initial] at edge
    obtain ⟨q, there, rfl⟩ := List.mem_map.mp edge
    have := ruled.lt_past q there
    rcases apart q there with same | before | after
    · rw [same]
    all_goals omega
  · obtain ⟨q, there, lowS, highS⟩ := ruled.covers positive (lt_size_of_mem_epsilon edge)
    by_cases atStop : s = q.stop
    · rw [atStop, ruled.stop q there] at edge
      cases edge
    · have := (ruled.shape q there).enclosed.epsilon s lowS highS atStop t edge
      rcases apart q there with same | before | after
      · rw [same] at atStop this lowS highS
        omega
      all_goals omega

/-- Nothing behind the gate leads back to the circle. -/
theorem Gateway.behind_outer {gate : Nat} {inner outer : Set Nat} (gateway : Gateway g id gate inner outer) {s t : Nat}
    (path : Silent g s t) (start : s ∈ outer) : t ∈ g.BehindFrom (id + 1) ∨ (t ∈ outer ∧ t ≤ s) := by
  induction path with
  | refl => exact .inr ⟨start, Nat.le_refl _⟩
  | @tail q t _ edge ih =>
    rcases ih with behind | ⟨member, le⟩
    · exact .inl (BehindFrom.step behind edge)
    · exact (gateway.outerEdge q member (fun none => nomatch none) t edge).imp_right fun ⟨inOuter, lower⟩ =>
        ⟨inOuter, (Nat.le_of_lt lower).trans le⟩

/-- Every state of the graph of rules has its gateway. -/
theorem Ruled.gateway {rules : List RulePiece} (ruled : Ruled g rules) (inside : id < g.size) :
    ∃ gate inner outer, Gateway g id gate inner outer := by
  rcases Nat.eq_zero_or_pos id with rfl | positive
  · refine ⟨_, _, _, .single fun _ t edge => ?_, fun s member => ?_, fun _ member => member.elim⟩
    · rw [ruled.initial] at edge
      obtain ⟨p, rule, rfl⟩ := List.mem_map.mp edge
      have := ruled.within rule
      have := ruled.lt_past p rule
      exact behindFrom_self (by omega) (by omega)
    · obtain rfl : s = 0 := member.resolve_left fun none => none
      exact inside
  · obtain ⟨p, rule, low, high⟩ := ruled.covers positive inside
    obtain ⟨gate, inner, outer, passage⟩ :=
      (ruled.shape p rule).inside (ruled.entered rule) (ruled.within rule).2 low high
    have below := (ruled.within rule).2
    refine ⟨gate, inner, outer, { passage.toPassage with outerEdge := ?_ }, fun s member => ?_, fun s member => ?_⟩
    · intro s member _ t edge
      by_cases atStop : s = p.stop
      · rw [atStop, ruled.stop p rule] at edge
        cases edge
      · exact passage.outerEdge s member (fun same => atStop (Option.some.inj same).symm) t edge
    · have := passage.within s member
      omega
    · have place := passage.within s (.inl member)
      have notStop : s ≠ p.stop := fun same => passage.stopOuter (same ▸ member)
      have blank := ruled.inner p rule s place.1 place.2 notStop
      unfold Unmarked at blank
      rw [blank]

end TokenTables.Automaton.Graph
