import TokenTables.Automaton.Graph

/-!
Dispatch on characters outside ASCII. A character splits into a high and a low byte; for each state the
low bytes it accepts under each high byte are a bit vector, and high bytes with the same vector share an
entry. Vectors and whole methods are kept once for all lexical states.
-/

namespace TokenTables.Automaton

/-- A set of byte values. -/
abbrev OctetSet := CodeSet 256

/-- How a state accepts characters outside ASCII, by places of vectors in the table. -/
structure DispatchMethod where
  /-- A set of high bytes, and the low bytes accepted under each of them. -/
  shared : List (Nat × Nat)
  /-- A high byte, and the low bytes accepted under it alone. -/
  singles : List (Nat × Nat)
deriving DecidableEq, Repr

structure DispatchTable where
  vectors : Array OctetSet := #[]
  methods : Array DispatchMethod := #[]
deriving DecidableEq, Repr

/-- A character whose high part is no byte met a set of high bytes. -/
structure BeyondTable where
  char : Char
deriving DecidableEq, Repr

namespace DispatchTable

/-- The place of a vector, added if new. -/
def placeVector (t : DispatchTable) (v : OctetSet) : DispatchTable × Nat :=
  match t.vectors.toList.idxOf? v with
  | some i => (t, i)
  | none => ({ t with vectors := t.vectors.push v }, t.vectors.size)

/-- The place of a method, added if new. -/
def placeMethod (t : DispatchTable) (m : DispatchMethod) : DispatchTable × Nat :=
  match t.methods.toList.idxOf? m with
  | some i => (t, i)
  | none => ({ t with methods := t.methods.push m }, t.methods.size)

/-- Vector `i` exists and holds `byte`. -/
def holds (t : DispatchTable) (i byte : Nat) : Bool := (t.vectors[i]?).any (·.contains byte)

/-- Whether a method accepts `c`. The shared entries come first. -/
def accepts (t : DispatchTable) (method : Nat) (c : Char) : Except BeyondTable Bool :=
  match t.methods[method]? with
  | none => .ok false
  | some m =>
    let high := c.toNat / 256
    let low := c.toNat % 256
    if 256 ≤ high && m.shared.any (fun (highs, _) => (t.vectors[highs]?).isSome) then .error ⟨c⟩
    else match m.shared.find? (fun (highs, _) => t.holds highs high) with
      | some (_, lows) => .ok (t.holds lows low)
      | none =>
        match m.singles.find? (fun (byte, _) => byte == high) with
        | some (_, lows) => .ok (t.holds lows low)
        | none => .ok false

end DispatchTable

/-- The low bytes that moves accept under a high byte. -/
def lowBytes (m : Moves) (high : Nat) : OctetSet :=
  let singles := (m.singles.filter (· / 256 == high)).map (· % 256)
  m.ranges.foldl (fun s r =>
    let first := max r.first (256 * high)
    let last := min r.last (256 * high + 255)
    if first ≤ last then s.insertRange (first - 256 * high) (last - 256 * high) else s)
    (CodeSet.ofList singles)

/-- The high bytes with some accepted low byte, and the vector of each. -/
def dispatchRows (m : Moves) : List (Nat × OctetSet) :=
  ((List.range 256).map fun high => (high, lowBytes m high)).filter fun row => row.2 != CodeSet.empty

theorem length_le_of_partition {α : Type} {p : α → Bool} {xs inside outside : List α}
    (split : xs.partition p = (inside, outside)) : outside.length ≤ xs.length := by
  rw [List.partition_eq_filter_filter, Prod.mk.injEq] at split
  rw [← split.2]
  exact List.length_filter_le _ _

set_option linter.unusedVariables false in
/-- Puts rows of equal vectors together: the shared ones, each with all its high bytes, and the rest. -/
def groupRows : List (Nat × OctetSet) → List (OctetSet × OctetSet) × List (Nat × OctetSet)
  | [] => ([], [])
  | (high, lows) :: rest =>
    match split : rest.partition (·.2 == lows) with
    | (same, others) =>
      let (shared, singles) := groupRows others
      if same.isEmpty then (shared, (high, lows) :: singles)
      else ((CodeSet.ofList (high :: same.map (·.1)), lows) :: shared, singles)
termination_by rows => rows.length
decreasing_by exact Nat.lt_succ_of_le (length_le_of_partition split)

namespace DispatchTable

/-- Adds the vectors of a method: those of the shared entries, high bytes first, and then the others. -/
def addMethod (t : DispatchTable) (m : Moves) : DispatchTable × DispatchMethod :=
  let (shared, singles) := groupRows (dispatchRows m)
  let (t, shared) := shared.foldl (fun (t, entries) (highs, lows) =>
    let (t, i) := t.placeVector highs
    let (t, j) := t.placeVector lows
    (t, entries ++ [(i, j)])) (t, [])
  let (t, singles) := singles.foldl (fun (t, entries) (high, lows) =>
    let (t, i) := t.placeVector lows
    (t, entries ++ [(high, i)])) (t, [])
  (t, ⟨shared, singles⟩)

end DispatchTable

namespace Graph

/-- Gives `id` its dispatch method, if it moves on anything outside ASCII. -/
def dispatchState (g : Graph) (t : DispatchTable) (id : StateId) : Graph × DispatchTable :=
  let m := (g.state id).moves
  if m.singles.isEmpty && m.ranges.isEmpty then (g, t)
  else
    let (t, method) := t.addMethod m
    let (t, place) := t.placeMethod method
    (g.alter id fun s => { s with dispatch := some place }, t)

/-- Gives every named state its dispatch method. -/
def dispatchAll (g : Graph) (t : DispatchTable) : Graph × DispatchTable :=
  g.named.toList.foldl (fun (g, t) id => g.dispatchState t id) (g, t)

end Graph

end TokenTables.Automaton
