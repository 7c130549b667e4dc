import Mathlib.Computability.Language
import TokenTables.Proofs.Automaton.Graph
import TokenTables.Proofs.Automaton.Moves

/-!
The shape of what is built for an expression. A fragment owns an interval of states and is left through its
stop state only; its texts are those read on the ways from its start to its stop.
-/

namespace TokenTables.Automaton.Graph

/-- The texts of one character. -/
def singles (accepts : Char → Prop) : Language Char := {text | ∃ c, text = [c] ∧ accepts c}

theorem singles_congr {p q : Char → Prop} (same : ∀ c, p c ↔ q c) : singles p = singles q :=
  congrArg singles (funext fun c => propext (same c))

/-- The texts of one character that the moves accept. -/
def reads (m : Moves) : Language Char := singles fun c => m.accepts c = true

/-- A fragment with the states from `start` to before `past`. -/
structure Piece where
  start : Nat
  stop : Nat
  past : Nat
  texts : Language Char

/-- The pieces follow each other in the numbering. -/
def Consecutive : Nat → List Piece → Nat → Prop
  | place, [], past => place = past
  | place, p :: rest, past => p.start = place ∧ Consecutive p.past rest past

/-- One text of a piece, or several of the same piece if `repeatable`, or nothing if `skippable`. -/
def forkTexts (skippable repeatable : Bool) (pieces : List Piece) : Language Char :=
  {text | (skippable = true ∧ text = []) ∨
    ∃ p ∈ pieces, text ∈ p.texts * (if repeatable then KStar.kstar p.texts else 1)}

/-- A state without moves. -/
structure Idle (s : State) : Prop where
  moves : s.moves = {}
  next : s.next = none

/-- How a fragment is put together. Its stop state may have further epsilon moves, which lead out of it. -/
inductive Shape (g : Graph) : (start stop past : Nat) → Language Char → Prop where
  | nothing {only : Nat} (idle : Idle (g.state only)) : Shape g only only (only + 1) 1
  | char {start stop past : Nat} {texts} (bare : (g.state start).epsilon = []) (valid : (g.state start).moves.Valid)
      (goes : (g.state start).next = some (start + 1)) (after : Shape g (start + 1) stop past texts) :
    Shape g start stop past (reads (g.state start).moves * texts)
  | join {start mid stop middle past : Nat} {first second} (before : Shape g start mid middle first)
      (link : (g.state mid).epsilon = [middle]) (after : Shape g middle stop past second) :
    Shape g start stop past (first * second)
  | fork {start past : Nat} {skippable repeatable pieces} (idle : Idle (g.state start))
      (stopIdle : Idle (g.state (start + 1)))
      (ahead : (g.state start).epsilon =
        (if skippable then [start + 1] else []) ++ pieces.map Piece.start)
      (row : Consecutive (start + 2) pieces past)
      (each : ∀ p ∈ pieces, Shape g p.start p.stop p.past p.texts)
      (back : ∀ p ∈ pieces, (g.state p.stop).epsilon =
        (start + 1) :: if repeatable then [p.start] else []) :
    Shape g start (start + 1) past (forkTexts skippable repeatable pieces)

/-! ### The interval of a fragment -/

theorem Consecutive.le {place past : Nat} {pieces : List Piece} (row : Consecutive place pieces past)
    (proper : ∀ p ∈ pieces, p.start ≤ p.past) : place ≤ past := by
  induction pieces generalizing place with
  | nil => exact Nat.le_of_eq row
  | cons p rest ih =>
    obtain ⟨begins, others⟩ := row
    have first := proper p List.mem_cons_self
    have later := ih others fun q member => proper q (List.mem_cons_of_mem _ member)
    omega

theorem Consecutive.within {place past : Nat} {pieces : List Piece} {p : Piece}
    (row : Consecutive place pieces past) (proper : ∀ p ∈ pieces, p.start ≤ p.past) (member : p ∈ pieces) :
    place ≤ p.start ∧ p.past ≤ past := by
  induction pieces generalizing place with
  | nil => cases member
  | cons q rest ih =>
    obtain ⟨begins, others⟩ := row
    have properRest : ∀ p ∈ rest, p.start ≤ p.past := fun p there => proper p (List.mem_cons_of_mem _ there)
    rcases List.mem_cons.mp member with rfl | there
    · exact ⟨begins.ge, others.le properRest⟩
    · have first := proper q List.mem_cons_self
      obtain ⟨low, high⟩ := ih others properRest there
      exact ⟨by omega, high⟩

theorem Consecutive.covers {place past s : Nat} {pieces : List Piece} (row : Consecutive place pieces past)
    (low : place ≤ s) (high : s < past) : ∃ p ∈ pieces, p.start ≤ s ∧ s < p.past := by
  induction pieces generalizing place with
  | nil =>
    have same : place = past := row
    omega
  | cons p rest ih =>
    obtain ⟨begins, others⟩ := row
    rcases Nat.lt_or_ge s p.past with here | later
    · exact ⟨p, List.mem_cons_self, by omega, here⟩
    · obtain ⟨q, member, within⟩ := ih others later
      exact ⟨q, List.mem_cons_of_mem _ member, within⟩

/-- What every fragment keeps to: only its stop state has edges that leave its interval, and nothing inside
leads back to its start. -/
structure Enclosed (g : Graph) (start stop past : Nat) : Prop where
  start_le : start ≤ stop
  stop_lt : stop < past
  epsilon : ∀ s : Nat, start ≤ s → s < past → s ≠ stop → ∀ t : Nat, t ∈ (g.state s).epsilon → start < t ∧ t < past
  next : ∀ s : Nat, start ≤ s → s < past → ∀ t : Nat, (g.state s).next = some t →
    t = s + 1 ∧ t < past ∧ s ≠ stop ∧ (g.state s).epsilon = []
  idle : ∀ s : Nat, start ≤ s → s < past → (g.state s).next = none → (g.state s).moves = {}
  valid : ∀ s : Nat, start ≤ s → s < past → (g.state s).moves.Valid

variable {g : Graph} {start stop past : Nat} {texts : Language Char}

theorem Enclosed.stop_next (inside : Enclosed g start stop past) : (g.state stop).next = none := by
  cases goes : (g.state stop).next with
  | none => rfl
  | some t => exact absurd rfl (inside.next stop inside.start_le inside.stop_lt t goes).2.2.1

theorem Idle.valid {s : State} (idle : Idle s) : s.moves.Valid := by
  rw [idle.moves]
  exact Moves.valid_empty

theorem Shape.enclosed (shape : Shape g start stop past texts) : Enclosed g start stop past := by
  induction shape with
  | @nothing only idle =>
    have here : ∀ s, only ≤ s → s < only + 1 → s = only := fun s low high => by omega
    refine ⟨Nat.le_refl _, Nat.lt_succ_self _, fun s low high other => ?_, fun s low high t goes => ?_,
      fun s low high _ => ?_, fun s low high => ?_⟩
    · exact absurd (here s low high) other
    · rw [here s low high, idle.next] at goes
      cases goes
    · rw [here s low high]
      exact idle.moves
    · rw [here s low high]
      exact idle.valid
  | @char start stop past texts bare valid goes after ih =>
    have first := ih.start_le
    have last := ih.stop_lt
    refine ⟨by omega, last, fun s low high other t member => ?_, fun s low high t leads => ?_,
      fun s low high halts => ?_, fun s low high => ?_⟩
    all_goals rcases Nat.eq_or_lt_of_le low with rfl | later
    · rw [bare] at member
      cases member
    · obtain ⟨above, below⟩ := ih.epsilon s later high other t member
      exact ⟨by omega, below⟩
    · have same : start + 1 = t := Option.some.inj (goes.symm.trans leads)
      exact ⟨same.symm, by omega, by omega, bare⟩
    · exact ih.next s later high t leads
    · rw [goes] at halts
      cases halts
    · exact ih.idle s later high halts
    · exact valid
    · exact ih.valid s later high
  | @join start mid stop middle past first second before link after ihBefore ihAfter =>
    have startMid := ihBefore.start_le
    have midMiddle := ihBefore.stop_lt
    have middleStop := ihAfter.start_le
    have stopPast := ihAfter.stop_lt
    refine ⟨by omega, stopPast, fun s low high other t member => ?_, fun s low high t leads => ?_,
      fun s low high halts => ?_, fun s low high => ?_⟩
    all_goals rcases Nat.lt_or_ge s middle with early | late
    · by_cases atMid : s = mid
      · rw [atMid, link, List.mem_singleton] at member
        omega
      · have := ihBefore.epsilon s low early atMid t member
        omega
    · have := ihAfter.epsilon s late high other t member
      omega
    · obtain ⟨next, below, _, bare⟩ := ihBefore.next s low early t leads
      exact ⟨next, by omega, by omega, bare⟩
    · exact ihAfter.next s late high t leads
    · exact ihBefore.idle s low early halts
    · exact ihAfter.idle s late high halts
    · exact ihBefore.valid s low early
    · exact ihAfter.valid s late high
  | @fork start past skippable repeatable pieces idle stopIdle ahead row each back ih =>
    have proper : ∀ p ∈ pieces, p.start ≤ p.past := fun p member =>
      ((ih p member).start_le.trans_lt (ih p member).stop_lt).le
    have room := row.le proper
    -- A state is one of the two new ones or lies in a piece.
    have place : ∀ s : Nat, start ≤ s → s < past →
        s = start ∨ s = start + 1 ∨ ∃ p ∈ pieces, p.start ≤ s ∧ s < p.past := by
      intro s low high
      rcases Nat.lt_or_ge s (start + 2) with new | old
      · omega
      · exact .inr (.inr (row.covers old high))
    refine ⟨by omega, by omega, fun s low high other t member => ?_, fun s low high t leads => ?_,
      fun s low high halts => ?_, fun s low high => ?_⟩
    all_goals rcases place s low high with rfl | rfl | ⟨p, piece, above, below⟩
    · rw [ahead] at member
      rcases List.mem_append.mp member with skip | into
      · split at skip
        · rw [List.mem_singleton] at skip
          omega
        · cases skip
      · obtain ⟨p, piece, rfl⟩ := List.mem_map.mp into
        have := row.within proper piece
        have := (ih p piece).start_le
        have := (ih p piece).stop_lt
        omega
    · exact absurd rfl other
    · have := row.within proper piece
      by_cases atStop : s = p.stop
      · rw [atStop, back p piece] at member
        have := (ih p piece).start_le
        have := (ih p piece).stop_lt
        rcases List.mem_cons.mp member with rfl | again
        · omega
        · split at again
          · rw [List.mem_singleton] at again
            omega
          · cases again
      · have := (ih p piece).epsilon s above below atStop t member
        omega
    · rw [idle.next] at leads
      cases leads
    · rw [stopIdle.next] at leads
      cases leads
    · have := row.within proper piece
      obtain ⟨next, within, _, bare⟩ := (ih p piece).next s above below t leads
      exact ⟨next, by omega, by omega, bare⟩
    · exact idle.moves
    · exact stopIdle.moves
    · exact (ih p piece).idle s above below halts
    · exact idle.valid
    · exact stopIdle.valid
    · exact (ih p piece).valid s above below

/-- Two states with the same ways out. -/
structure SameEdges (s t : State) : Prop where
  moves : s.moves = t.moves
  next : s.next = t.next
  epsilon : s.epsilon = t.epsilon

/-- A shape depends on the edges of its states only, and not on the epsilon moves of its stop state. -/
theorem Shape.congr {other : Graph} (shape : Shape g start stop past texts)
    (same : ∀ s : Nat, start ≤ s → s < past → s ≠ stop → SameEdges (other.state s) (g.state s))
    (moves : (other.state stop).moves = (g.state stop).moves)
    (next : (other.state stop).next = (g.state stop).next) : Shape other start stop past texts := by
  induction shape with
  | nothing idle => exact .nothing ⟨moves.trans idle.moves, next.trans idle.next⟩
  | @char start stop past texts bare valid goes after ih =>
    have first := after.enclosed.start_le
    have last := after.enclosed.stop_lt
    obtain ⟨sameMoves, sameNext, sameEpsilon⟩ := same start (Nat.le_refl _) (by omega) (by omega)
    rw [← sameMoves]
    exact .char (sameEpsilon.trans bare) (sameMoves ▸ valid) (sameNext.trans goes)
      (ih (fun s low high => same s (by omega) high) moves next)
  | @join start mid stop middle past first second before link after ihBefore ihAfter =>
    have startMid := before.enclosed.start_le
    have midMiddle := before.enclosed.stop_lt
    have middleStop := after.enclosed.start_le
    have stopPast := after.enclosed.stop_lt
    obtain ⟨midMoves, midNext, midEpsilon⟩ := same mid startMid (by omega) (by omega)
    exact .join (ihBefore (fun s low high _ => same s low (by omega) (by omega)) midMoves midNext)
      (midEpsilon.trans link) (ihAfter (fun s low high => same s (by omega) high) moves next)
  | @fork start past skippable repeatable pieces idle stopIdle ahead row each back ih =>
    have proper : ∀ p ∈ pieces, p.start ≤ p.past := fun p member =>
      ((each p member).enclosed.start_le.trans_lt (each p member).enclosed.stop_lt).le
    have room := row.le proper
    obtain ⟨startMoves, startNext, startEpsilon⟩ := same start (Nat.le_refl _) (by omega) (by omega)
    have pieceSame : ∀ p ∈ pieces, ∀ s : Nat, p.start ≤ s → s < p.past →
        SameEdges (other.state s) (g.state s) := by
      intro p member s low high
      have := row.within proper member
      exact same s (by omega) (by omega) (by omega)
    have stopSame : ∀ p ∈ pieces, SameEdges (other.state p.stop) (g.state p.stop) := fun p member =>
      pieceSame p member p.stop (each p member).enclosed.start_le (each p member).enclosed.stop_lt
    refine .fork ⟨startMoves.trans idle.moves, startNext.trans idle.next⟩
      ⟨moves.trans stopIdle.moves, next.trans stopIdle.next⟩ (startEpsilon.trans ahead) row
      (fun p member => ?_) (fun p member => (stopSame p member).epsilon.trans (back p member))
    exact ih p member (fun s low high _ => pieceSame p member s low high) (stopSame p member).moves
      (stopSame p member).next

end TokenTables.Automaton.Graph
