import Mathlib.Data.List.Find
import TokenTables.Automaton.Entry
import TokenTables.Proofs.Automaton.Graph
import TokenTables.Proofs.Automaton.Moves

/-!
Dispatch on characters outside ASCII. The rows of a state say which low bytes it accepts under each high byte;
shared or not, they come back from the table, also after more vectors and methods have been added to it.
-/

namespace TokenTables.Automaton

open Text (CodeRange)

/-! ### Rows -/

theorem contains_foldl_ranges {ranges : List CodeRange} {high low : Nat} (small : low < 256) {s : OctetSet} :
    (ranges.foldl (fun s r =>
      let first := max r.first (256 * high)
      let last := min r.last (256 * high + 255)
      if first ≤ last then s.insertRange (first - 256 * high) (last - 256 * high) else s) s).contains low = true ↔
      s.contains low = true ∨ ∃ r ∈ ranges, r.contains (256 * high + low) = true := by
  induction ranges generalizing s with
  | nil => simp
  | cons r rest ih =>
    rw [List.foldl_cons, ih]
    have first : (let first := max r.first (256 * high)
        let last := min r.last (256 * high + 255)
        if first ≤ last then s.insertRange (first - 256 * high) (last - 256 * high) else s).contains low = true ↔
        s.contains low = true ∨ r.contains (256 * high + low) = true := by
      dsimp only
      rw [Text.CodeRange.contains_iff]
      split
      · rw [CodeSet.contains_insertRange (by omega)]
        constructor
        · rintro (within | old)
          · exact .inr (by omega)
          · exact .inl old
        · rintro (old | within)
          · exact .inr old
          · exact .inl (by omega)
      · constructor
        · exact .inl
        · rintro (old | within)
          · exact old
          · omega
    rw [first, or_assoc, List.exists_mem_cons_iff]

/-- The low bytes under a high byte are those of the codes accepted outside ASCII. -/
theorem contains_lowBytes {m : Moves} {high low : Nat} (small : low < 256) :
    (lowBytes m high).contains low = true ↔
      256 * high + low ∈ m.singles ∨ ∃ r ∈ m.ranges, r.contains (256 * high + low) = true := by
  unfold lowBytes
  dsimp only
  rw [contains_foldl_ranges small]
  refine or_congr_left ?_
  have inside : ∀ added ∈ (m.singles.filter (· / 256 == high)).map (· % 256), added < 256 := by
    intro added member
    obtain ⟨code, _, rfl⟩ := List.mem_map.mp member
    exact Nat.mod_lt _ (by decide)
  rw [CodeSet.contains_ofList inside, List.mem_map]
  constructor
  · rintro ⟨code, member, rfl⟩
    obtain ⟨known, same⟩ := List.mem_filter.mp member
    rw [beq_iff_eq] at same
    have whole : 256 * high + code % 256 = code := by omega
    rwa [whole]
  · intro member
    refine ⟨256 * high + low, List.mem_filter.mpr ⟨member, ?_⟩, by omega⟩
    rw [beq_iff_eq]
    omega

theorem mem_dispatchRows {m : Moves} {high : Nat} {lows : OctetSet} :
    (high, lows) ∈ dispatchRows m ↔ high < 256 ∧ lows = lowBytes m high ∧ lows ≠ CodeSet.empty := by
  unfold dispatchRows
  simp only [List.mem_filter, List.mem_map, List.mem_range, Prod.mk.injEq, bne_iff_ne]
  constructor
  · rintro ⟨⟨_, small, rfl, rfl⟩, some⟩
    exact ⟨small, rfl, some⟩
  · rintro ⟨small, rfl, some⟩
    exact ⟨⟨high, small, rfl, rfl⟩, some⟩

/-- What the groups of rows have to do with the rows. -/
structure Grouped (rows : List (Nat × OctetSet)) (groups : List (OctetSet × OctetSet) × List (Nat × OctetSet)) :
    Prop where
  shared : ∀ e ∈ groups.1, ∀ high, e.1.contains high = true → (high, e.2) ∈ rows
  singles : ∀ e ∈ groups.2, e ∈ rows
  all : ∀ row ∈ rows, (∃ e ∈ groups.1, e.1.contains row.1 = true) ∨ row ∈ groups.2

/-- Every row comes back from the groups: it is shared under its high byte, or stands alone. -/
theorem groupRows_grouped {rows : List (Nat × OctetSet)} (small : ∀ row ∈ rows, row.1 < 256) :
    Grouped rows (groupRows rows) := by
  generalize bound : rows.length = n
  induction n using Nat.strongRecOn generalizing rows with
  | ind n ih =>
    cases rows with
    | nil =>
      rw [groupRows]
      exact ⟨fun e member => (List.not_mem_nil member).elim, fun e member => (List.not_mem_nil member).elim,
        fun row member => (List.not_mem_nil member).elim⟩
    | cons row rest =>
      obtain ⟨high, lows⟩ := row
      rw [groupRows]
      split
      rename_i same others split
      have shorter := length_le_of_partition split
      have parted : same = rest.filter (·.2 == lows) ∧ others = rest.filter fun row => !(row.2 == lows) := by
        rw [List.partition_eq_filter_filter, Prod.mk.injEq] at split
        exact ⟨split.1.symm, split.2.symm⟩
      have inSame : ∀ row ∈ same, row ∈ rest ∧ row.2 = lows := by
        intro row member
        rw [parted.1, List.mem_filter, beq_iff_eq] at member
        exact member
      have inOthers : ∀ row ∈ others, row ∈ rest := fun row member => by
        rw [parted.2] at member
        exact (List.mem_filter.mp member).1
      have divided : ∀ row ∈ rest, row ∈ same ∨ row ∈ others := by
        intro row member
        rw [parted.1, parted.2, List.mem_filter, List.mem_filter]
        cases row.2 == lows with
        | true => exact .inl ⟨member, rfl⟩
        | false => exact .inr ⟨member, rfl⟩
      have grouped := ih others.length (by rw [← bound]; exact Nat.lt_succ_of_le shorter)
        (fun row member => small row (List.mem_cons_of_mem _ (inOthers row member))) rfl
      dsimp only
      split
      · rename_i alone
        have none : same = [] := List.isEmpty_iff.mp alone
        refine ⟨fun e member byte holds => ?_, fun e member => ?_, fun row member => ?_⟩
        · exact List.mem_cons_of_mem _ (inOthers _ (grouped.shared e member byte holds))
        · rcases List.mem_cons.mp member with rfl | later
          · exact List.mem_cons_self
          · exact List.mem_cons_of_mem _ (inOthers e (grouped.singles e later))
        · rcases List.mem_cons.mp member with rfl | later
          · exact .inr List.mem_cons_self
          · rcases divided row later with here | other
            · rw [none] at here
              cases here
            · exact (grouped.all row other).imp_right fun single => List.mem_cons_of_mem _ single
      · have smallHighs : ∀ added ∈ high :: same.map (·.1), added < 256 := by
          intro added member
          rcases List.mem_cons.mp member with rfl | later
          · exact small _ List.mem_cons_self
          · obtain ⟨row, inGroup, rfl⟩ := List.mem_map.mp later
            exact small row (List.mem_cons_of_mem _ (inSame row inGroup).1)
        refine ⟨fun e member byte holds => ?_, fun e member => ?_, fun row member => ?_⟩
        · rcases List.mem_cons.mp member with rfl | later
          · rcases List.mem_cons.mp ((CodeSet.contains_ofList smallHighs).mp holds) with rfl | inGroup
            · exact List.mem_cons_self
            · obtain ⟨row, inSameRow, rfl⟩ := List.mem_map.mp inGroup
              obtain ⟨inRest, equal⟩ := inSame row inSameRow
              exact List.mem_cons_of_mem _ (equal ▸ inRest)
          · exact List.mem_cons_of_mem _ (inOthers _ (grouped.shared e later byte holds))
        · exact List.mem_cons_of_mem _ (inOthers e (grouped.singles e member))
        · have first : ∀ byte ∈ high :: same.map (·.1),
              ∃ e ∈ (CodeSet.ofList (high :: same.map (·.1)), lows) :: (groupRows others).1,
                e.1.contains byte = true := fun byte inGroup =>
            ⟨_, List.mem_cons_self, (CodeSet.contains_ofList smallHighs).mpr inGroup⟩
          rcases List.mem_cons.mp member with rfl | later
          · exact .inl (first _ List.mem_cons_self)
          · rcases divided row later with here | other
            · exact .inl (first _ (List.mem_cons_of_mem _ (List.mem_map.mpr ⟨row, here, rfl⟩)))
            · rcases grouped.all row other with ⟨e, inShared, holds⟩ | single
              · exact .inl ⟨e, List.mem_cons_of_mem _ inShared, holds⟩
              · exact .inr single

/-! ### Tables -/

namespace DispatchTable

/-- What is in the first table is in the second in the same places. -/
structure Extends (t u : DispatchTable) : Prop where
  vectors : ∀ (i : Nat) (v : OctetSet), t.vectors[i]? = some v → u.vectors[i]? = some v
  methods : ∀ (i : Nat) (m : DispatchMethod), t.methods[i]? = some m → u.methods[i]? = some m

variable {t u v : DispatchTable}

theorem Extends.refl (t : DispatchTable) : Extends t t := ⟨fun _ _ known => known, fun _ _ known => known⟩

theorem Extends.trans (one : Extends t u) (two : Extends u v) : Extends t v :=
  ⟨fun i x known => two.vectors i x (one.vectors i x known), fun i x known => two.methods i x (one.methods i x known)⟩

theorem getElem?_of_idxOf? {α : Type} [BEq α] [LawfulBEq α] {xs : Array α} {x : α} {i : Nat}
    (found : xs.toList.idxOf? x = some i) : xs[i]? = some x := by
  have place := List.findIdx?_eq_some_iff_getElem.mp found
  obtain ⟨inside, same, _⟩ := place
  rw [← Array.getElem?_toList, List.getElem?_eq_getElem inside, beq_iff_eq.mp same]

theorem getElem?_push_old {α : Type} {xs : Array α} {x y : α} {i : Nat} (known : xs[i]? = some y) :
    (xs.push x)[i]? = some y := by
  have lower := (Array.getElem?_eq_some_iff.mp known).1
  rw [Array.getElem?_push, if_neg (Nat.ne_of_lt lower)]
  exact known

theorem placeVector_ok (t : DispatchTable) (x : OctetSet) :
    Extends t (t.placeVector x).1 ∧ (t.placeVector x).1.vectors[(t.placeVector x).2]? = some x := by
  unfold placeVector
  split
  · rename_i i found
    exact ⟨.refl t, getElem?_of_idxOf? found⟩
  · exact ⟨⟨fun i y known => getElem?_push_old known, fun i m known => known⟩, by simp⟩

theorem placeMethod_ok (t : DispatchTable) (m : DispatchMethod) :
    Extends t (t.placeMethod m).1 ∧ (t.placeMethod m).1.methods[(t.placeMethod m).2]? = some m := by
  unfold placeMethod
  split
  · rename_i i found
    exact ⟨.refl t, getElem?_of_idxOf? found⟩
  · exact ⟨⟨fun i y known => known, fun i m known => getElem?_push_old known⟩, by simp⟩

/-- The places of a shared entry hold its vectors. -/
def HoldsShared (t : DispatchTable) (e : Nat × Nat) (row : OctetSet × OctetSet) : Prop :=
  t.vectors[e.1]? = some row.1 ∧ t.vectors[e.2]? = some row.2

/-- An entry of one high byte keeps it, and its place holds the vector. -/
def HoldsSingle (t : DispatchTable) (e : Nat × Nat) (row : Nat × OctetSet) : Prop :=
  e.1 = row.1 ∧ t.vectors[e.2]? = some row.2

/-- A method whose places hold the grouped rows of the moves. -/
structure Serves (t : DispatchTable) (method : DispatchMethod) (m : Moves) : Prop where
  shared : List.Forall₂ (HoldsShared t) method.shared (groupRows (dispatchRows m)).1
  singles : List.Forall₂ (HoldsSingle t) method.singles (groupRows (dispatchRows m)).2

theorem HoldsShared.extends (ext : Extends t u) {e : Nat × Nat} {row : OctetSet × OctetSet}
    (holds : HoldsShared t e row) : HoldsShared u e row :=
  ⟨ext.vectors _ _ holds.1, ext.vectors _ _ holds.2⟩

theorem HoldsSingle.extends (ext : Extends t u) {e : Nat × Nat} {row : Nat × OctetSet}
    (holds : HoldsSingle t e row) : HoldsSingle u e row :=
  ⟨holds.1, ext.vectors _ _ holds.2⟩

theorem Serves.extends (ext : Extends t u) {method : DispatchMethod} {m : Moves} (serves : Serves t method m) :
    Serves u method m :=
  ⟨serves.shared.imp fun _ _ => .extends ext, serves.singles.imp fun _ _ => .extends ext⟩

/-- Places the vectors of a shared entry. -/
def placeShared (placed : DispatchTable × List (Nat × Nat)) (row : OctetSet × OctetSet) :
    DispatchTable × List (Nat × Nat) :=
  let (t, i) := placed.1.placeVector row.1
  let (t, j) := t.placeVector row.2
  (t, placed.2 ++ [(i, j)])

/-- Places the vector of a high byte alone. -/
def placeSingle (placed : DispatchTable × List (Nat × Nat)) (row : Nat × OctetSet) : DispatchTable × List (Nat × Nat) :=
  let (t, i) := placed.1.placeVector row.2
  (t, placed.2 ++ [(row.1, i)])

theorem addMethod_eq (t : DispatchTable) (m : Moves) :
    t.addMethod m =
      let shared := (groupRows (dispatchRows m)).1.foldl placeShared (t, [])
      let singles := (groupRows (dispatchRows m)).2.foldl placeSingle (shared.1, [])
      (singles.1, ⟨shared.2, singles.2⟩) := rfl

theorem placeShared_ok (rows : List (OctetSet × OctetSet)) (t : DispatchTable) (entries : List (Nat × Nat)) :
    ∃ after new, rows.foldl placeShared (t, entries) = (after, entries ++ new) ∧ Extends t after ∧
      List.Forall₂ (HoldsShared after) new rows := by
  induction rows generalizing t entries with
  | nil => exact ⟨t, [], by rw [List.append_nil]; rfl, .refl t, .nil⟩
  | cons row rest ih =>
    obtain ⟨extHighs, holdsHighs⟩ := placeVector_ok t row.1
    obtain ⟨extLows, holdsLows⟩ := placeVector_ok (t.placeVector row.1).1 row.2
    obtain ⟨after, new, result, ext, all⟩ := ih ((t.placeVector row.1).1.placeVector row.2).1
      (entries ++ [((t.placeVector row.1).2, ((t.placeVector row.1).1.placeVector row.2).2)])
    refine ⟨after, ((t.placeVector row.1).2, ((t.placeVector row.1).1.placeVector row.2).2) :: new, ?_,
      extHighs.trans (extLows.trans ext), .cons ?_ all⟩
    · rw [List.append_assoc] at result
      exact result
    · exact .extends ext ⟨extLows.vectors _ _ holdsHighs, holdsLows⟩

theorem placeSingles_ok (rows : List (Nat × OctetSet)) (t : DispatchTable) (entries : List (Nat × Nat)) :
    ∃ after new, rows.foldl placeSingle (t, entries) = (after, entries ++ new) ∧ Extends t after ∧
      List.Forall₂ (HoldsSingle after) new rows := by
  induction rows generalizing t entries with
  | nil => exact ⟨t, [], by rw [List.append_nil]; rfl, .refl t, .nil⟩
  | cons row rest ih =>
    obtain ⟨extLows, holdsLows⟩ := placeVector_ok t row.2
    obtain ⟨after, new, result, ext, all⟩ := ih (t.placeVector row.2).1
      (entries ++ [(row.1, (t.placeVector row.2).2)])
    refine ⟨after, (row.1, (t.placeVector row.2).2) :: new, ?_, extLows.trans ext, .cons ?_ all⟩
    · rw [List.append_assoc] at result
      exact result
    · exact .extends ext ⟨rfl, holdsLows⟩

theorem addMethod_ok (t : DispatchTable) (m : Moves) :
    Extends t (t.addMethod m).1 ∧ Serves (t.addMethod m).1 (t.addMethod m).2 m := by
  obtain ⟨first, shared, sharedResult, sharedExt, holdsShared⟩ := placeShared_ok (groupRows (dispatchRows m)).1 t []
  obtain ⟨last, singles, singlesResult, singlesExt, holdsSingles⟩ :=
    placeSingles_ok (groupRows (dispatchRows m)).2 first []
  rw [addMethod_eq, sharedResult]
  dsimp only
  rw [singlesResult]
  exact ⟨sharedExt.trans singlesExt, holdsShared.imp fun _ _ => .extends singlesExt, holdsSingles⟩

/-! ### Reading the table -/

/-- Two lists that correspond are searched alike. -/
theorem find?_forall₂ {α β : Type} {R : α → β → Prop} {p : α → Bool} {q : β → Bool} {xs : List α} {ys : List β}
    (same : List.Forall₂ R xs ys) (alike : ∀ x y, R x y → p x = q y) :
    xs.find? p = none ∧ ys.find? q = none ∨ ∃ x y, xs.find? p = some x ∧ ys.find? q = some y ∧ R x y := by
  induction same with
  | nil => exact .inl ⟨rfl, rfl⟩
  | @cons x y xs ys related _ ih =>
    rw [List.find?_cons, List.find?_cons, ← alike x y related]
    cases p x with
    | true => exact .inr ⟨x, y, rfl, rfl, related⟩
    | false => exact ih

theorem holds_of_vector {i byte : Nat} {x : OctetSet} (known : t.vectors[i]? = some x) :
    t.holds i byte = x.contains byte := by
  unfold holds
  rw [known]
  rfl

/-- A method accepts, of the characters outside ASCII and up to U+FFFF, those that the moves accept. -/
theorem Serves.accepts {method : DispatchMethod} {m : Moves} {place : Nat} (serves : Serves t method m)
    (known : t.methods[place]? = some method) {c : Char} (beyond : asciiEnd ≤ c.toNat) (basic : c.toNat ≤ Text.lastCode) :
    t.accepts place c = .ok (m.accepts c) := by
  have basic : c.toNat ≤ 0xFFFF := basic
  have highSmall : c.toNat / 256 < 256 := by omega
  have lowSmall : c.toNat % 256 < 256 := Nat.mod_lt _ (by decide)
  have whole : 256 * (c.toNat / 256) + c.toNat % 256 = c.toNat := by omega
  have grouped := @groupRows_grouped (dispatchRows m) fun row member => (mem_dispatchRows.mp member).1
  have accepted : m.accepts c = (lowBytes m (c.toNat / 256)).contains (c.toNat % 256) := by
    rw [Bool.eq_iff_iff, contains_lowBytes lowSmall, whole]
    unfold Moves.accepts Moves.acceptsCode
    rw [if_neg (by omega), Bool.or_eq_true, List.contains_iff_mem, List.any_eq_true]
  have row : ∀ lows, (c.toNat / 256, lows) ∈ dispatchRows m → lows.contains (c.toNat % 256) = m.accepts c := by
    intro lows member
    rw [accepted, (mem_dispatchRows.mp member).2.1]
  unfold DispatchTable.accepts
  rw [known]
  dsimp only
  rw [if_neg (by
    rw [Bool.and_eq_true, decide_eq_true_eq]
    omega)]
  rcases find?_forall₂ (p := fun e : Nat × Nat => t.holds e.1 (c.toNat / 256)) (q := fun e => e.1.contains (c.toNat / 256))
    serves.shared (fun e row holds => holds_of_vector holds.1) with ⟨noneShared, noGroup⟩ | ⟨e, group, found, foundGroup, holds⟩
  · rw [noneShared]
    dsimp only
    rcases find?_forall₂ (p := fun e : Nat × Nat => e.1 == c.toNat / 256) (q := fun e => e.1 == c.toNat / 256)
      serves.singles (fun e row holds => by rw [holds.1]) with ⟨noneSingle, noRow⟩ | ⟨e, single, found, foundRow, holds⟩
    · rw [noneSingle]
      -- No row has this high byte, so nothing is accepted under it.
      have noneAccepted : m.accepts c = false := by
        rw [accepted]
        by_contra some
        have nonempty : lowBytes m (c.toNat / 256) ≠ CodeSet.empty := by
          intro empty
          rw [empty, CodeSet.contains_empty] at some
          exact some rfl
        have member : (c.toNat / 256, lowBytes m (c.toNat / 256)) ∈ dispatchRows m :=
          mem_dispatchRows.mpr ⟨highSmall, rfl, nonempty⟩
        rcases grouped.all _ member with ⟨e, inShared, holds⟩ | inSingles
        · exact absurd holds (List.find?_eq_none.mp noGroup e inShared)
        · exact absurd (beq_self_eq_true _) (List.find?_eq_none.mp noRow _ inSingles)
      rw [noneAccepted]
    · rw [found]
      dsimp only
      have same : single.1 = c.toNat / 256 := by simpa using List.find?_some foundRow
      have member := grouped.singles single (List.mem_of_find?_eq_some foundRow)
      rw [holds_of_vector holds.2, row single.2 (same ▸ member)]
  · rw [found]
    dsimp only
    have same : group.1.contains (c.toNat / 256) = true := by simpa using List.find?_some foundGroup
    have member := grouped.shared group (List.mem_of_find?_eq_some foundGroup) _ same
    rw [holds_of_vector holds.2, row group.2 member]

/-! ### Methods -/

/-- The place holds a method, and every place that the method names holds a vector. -/
def HasMethod (t : DispatchTable) (place : Nat) : Prop :=
  ∃ method, t.methods[place]? = some method ∧
    (∀ e ∈ method.shared, e.1 < t.vectors.size ∧ e.2 < t.vectors.size) ∧ ∀ e ∈ method.singles, e.2 < t.vectors.size

theorem Serves.hasMethod {method : DispatchMethod} {m : Moves} {place : Nat}
    (serves : Serves t method m) (known : t.methods[place]? = some method) : t.HasMethod place := by
  have bound : ∀ {place v}, t.vectors[place]? = some v → place < t.vectors.size :=
    fun there => (Array.getElem?_eq_some_iff.mp there).1
  refine ⟨method, known, ((List.forall₂_and_left _ _).mp (serves.shared.imp fun e row holds => ⟨?_, holds⟩)).1,
    ((List.forall₂_and_left _ _).mp (serves.singles.imp fun e row holds => ⟨bound holds.2, holds⟩)).1⟩
  exact ⟨bound holds.1, bound holds.2⟩

/-- Every method of the table names vectors that are there. -/
def HasMethods (t : DispatchTable) : Prop := ∀ place < t.methods.size, t.HasMethod place

theorem HasMethod.extends (ext : Extends t u) {place : Nat}
    (has : t.HasMethod place) : u.HasMethod place := by
  have grown : ∀ {v : Nat}, v < t.vectors.size → v < u.vectors.size := fun there =>
    (Array.getElem?_eq_some_iff.mp (ext.vectors _ _ (Array.getElem?_eq_getElem there))).1
  obtain ⟨method, known, shared, singles⟩ := has
  exact ⟨method, ext.methods _ _ known, fun e member => ⟨grown (shared e member).1, grown (shared e member).2⟩,
    fun e member => grown (singles e member)⟩

/-- Vectors and methods that are added do not change what a method accepts. -/
theorem HasMethod.accepts_extends (ext : Extends t u) {place : Nat} (has : t.HasMethod place) (c : Char) :
    u.accepts place c = t.accepts place c := by
  obtain ⟨method, known, shared, singles⟩ := has
  have vector : ∀ {i : Nat}, i < t.vectors.size → u.vectors[i]? = t.vectors[i]? := fun there => by
    rw [Array.getElem?_eq_getElem there]
    exact ext.vectors _ _ (Array.getElem?_eq_getElem there)
  have holds : ∀ {i : Nat}, i < t.vectors.size → ∀ byte, u.holds i byte = t.holds i byte := fun there byte => by
    unfold DispatchTable.holds
    rw [vector there]
  have anyShared : (method.shared.any fun e => (u.vectors[e.1]?).isSome) = method.shared.any fun e => (t.vectors[e.1]?).isSome := by
    rw [Bool.eq_iff_iff, List.any_eq_true, List.any_eq_true]
    exact exists_congr fun e => and_congr_right fun member => by rw [vector (shared e member).1]
  have sameShared : method.shared.find? (fun e => u.holds e.1 (c.toNat / 256)) =
      method.shared.find? fun e => t.holds e.1 (c.toNat / 256) :=
    List.find?_congr fun e member => holds (shared e member).1 _
  unfold DispatchTable.accepts
  rw [known, ext.methods _ _ known]
  dsimp only
  rw [anyShared, sameShared]
  split
  · rfl
  · split
    · rename_i e lows found
      rw [holds (shared _ (List.mem_of_find?_eq_some found)).2]
    · split
      · rename_i e lows found
        rw [holds (singles _ (List.mem_of_find?_eq_some found))]
      · rfl

theorem hasMethods_placeMethod (has : t.HasMethods) {method : DispatchMethod} {m : Moves}
    (serves : Serves t method m) : (t.placeMethod method).1.HasMethods := by
  obtain ⟨ext, known⟩ := placeMethod_ok t method
  intro place inside
  by_cases old : place < t.methods.size
  · exact (has place old).extends ext
  · have last : (t.placeMethod method).2 = place := by
      unfold placeMethod at inside ⊢
      split at inside
      · exact absurd inside old
      · rw [Array.size_push] at inside
        exact Nat.le_antisymm (Nat.le_of_not_lt old) (Nat.le_of_lt_succ inside)
    rw [← last]
    exact (serves.extends ext).hasMethod known

theorem methods_placeVector (t : DispatchTable) (x : OctetSet) : (t.placeVector x).1.methods = t.methods := by
  unfold placeVector
  split <;> rfl

theorem methods_addMethod (t : DispatchTable) (m : Moves) : (t.addMethod m).1.methods = t.methods := by
  rw [addMethod_eq]
  dsimp only
  refine List.foldlRecOn (motive := fun placed : DispatchTable × List (Nat × Nat) => placed.1.methods = t.methods) _ _ ?_
    fun placed same row _ => (methods_placeVector _ _).trans same
  exact List.foldlRecOn (motive := fun placed : DispatchTable × List (Nat × Nat) => placed.1.methods = t.methods) _ _ rfl
    fun placed same row _ => (methods_placeVector _ _).trans ((methods_placeVector _ _).trans same)

end DispatchTable

/-! ### Dispatch of a whole graph -/

namespace Graph

open DispatchTable (Extends Serves)

/-- A state that needs a dispatch method has one that serves its moves. -/
def Dispatched (t : DispatchTable) (s : State) : Prop :=
  (s.dispatch = none ∧ s.moves.singles = [] ∧ s.moves.ranges = []) ∨
    ∃ place method, s.dispatch = some place ∧ t.methods[place]? = some method ∧ Serves t method s.moves

variable {g : Graph} {t u : DispatchTable}

theorem Dispatched.extends (ext : Extends t u) {s : State} (dispatched : Dispatched t s) : Dispatched u s := by
  rcases dispatched with ascii | ⟨place, method, chosen, known, serves⟩
  · exact .inl ascii
  · exact .inr ⟨place, method, chosen, ext.methods _ _ known, .extends ext serves⟩

theorem Dispatched.accepts {s : State} (dispatched : Dispatched t s) {c : Char} (basic : c.toNat ≤ Text.lastCode)
    (next : List EntryName) (kind : Option Kind) :
    (MoveEntry.mk s.moves next kind s.dispatch).accepts t c = .ok (s.accepts c) := by
  unfold MoveEntry.accepts State.accepts
  dsimp only
  split
  · rename_i small
    unfold Moves.accepts Moves.acceptsCode
    rw [if_pos small]
  · rename_i large
    rcases dispatched with ⟨none, noSingles, noRanges⟩ | ⟨place, method, chosen, known, serves⟩
    · rw [none]
      unfold Moves.accepts Moves.acceptsCode
      rw [if_neg large, noSingles, noRanges]
      rfl
    · rw [chosen]
      exact serves.accepts known (by omega) basic

/-- The second graph differs from the first in dispatch methods only. -/
structure SameButDispatch (g h : Graph) : Prop where
  size : h.size = g.size
  frame : { h with states := #[] } = { g with states := #[] }
  state : ∀ s : Nat, h.state s = { g.state s with dispatch := (h.state s).dispatch }

theorem SameButDispatch.refl (g : Graph) : SameButDispatch g g := ⟨rfl, rfl, fun _ => rfl⟩

theorem SameButDispatch.trans {f g h : Graph} (one : SameButDispatch f g) (two : SameButDispatch g h) :
    SameButDispatch f h where
  size := two.size.trans one.size
  frame := two.frame.trans one.frame
  state s := by
    rw [two.state s, one.state s]

theorem dispatchState_ok (id : Nat) (clean : Dispatched t (g.state id) ∨ (g.state id).dispatch = none) (inside : id < g.size) :
    Extends t (g.dispatchState t id).2 ∧ SameButDispatch g (g.dispatchState t id).1 ∧
      (∀ s : Nat, s ≠ id → (g.dispatchState t id).1.state s = g.state s) ∧
      Dispatched (g.dispatchState t id).2 ((g.dispatchState t id).1.state id) := by
  unfold dispatchState
  dsimp only
  split
  · rename_i ascii
    rw [Bool.and_eq_true, List.isEmpty_iff, List.isEmpty_iff] at ascii
    refine ⟨.refl t, .refl g, fun _ _ => rfl, ?_⟩
    rcases clean with known | none
    · exact known
    · exact .inl ⟨none, ascii⟩
  · obtain ⟨added, serves⟩ := DispatchTable.addMethod_ok t (g.state id).moves
    obtain ⟨placed, known⟩ := DispatchTable.placeMethod_ok (t.addMethod (g.state id).moves).1
      (t.addMethod (g.state id).moves).2
    refine ⟨added.trans placed, ⟨size_alter, rfl, fun s => ?_⟩, fun s different => state_alter_other different, ?_⟩
    · rw [state_alter]
      split
      · rename_i here
        rw [here.1]
      · rfl
    · rw [state_alter_same inside]
      exact .inr ⟨_, _, rfl, known, .extends placed serves⟩

theorem dispatchStates_ok {ids : List Nat} (inside : ∀ id ∈ ids, id < g.size)
    (clean : ∀ s : Nat, Dispatched t (g.state s) ∨ (g.state s).dispatch = none) :
    ∃ h u, ids.foldl (fun (g, t) id => Graph.dispatchState g t id) (g, t) = (h, u) ∧ Extends t u ∧
      SameButDispatch g h ∧ (∀ s : Nat, Dispatched t (g.state s) → Dispatched u (h.state s)) ∧
      ∀ id ∈ ids, Dispatched u (h.state id) := by
  induction ids generalizing g t with
  | nil => exact ⟨g, t, rfl, .refl t, .refl g, fun _ known => known, fun id member => absurd member List.not_mem_nil⟩
  | cons id rest ih =>
    obtain ⟨ext, same, other, here⟩ := dispatchState_ok id (clean id) (inside id List.mem_cons_self)
    have kept : ∀ s : Nat, Dispatched t (g.state s) →
        Dispatched (g.dispatchState t id).2 ((g.dispatchState t id).1.state s) := by
      intro s known
      by_cases isId : s = id
      · rw [isId]
        exact here
      · rw [other s isId]
        exact .extends ext known
    obtain ⟨h, u, result, extRest, sameRest, keptRest, all⟩ := @ih (g.dispatchState t id).1 (g.dispatchState t id).2
      (fun q member => by
        rw [same.size]
        exact inside q (List.mem_cons_of_mem _ member))
      (fun s => by
        rcases clean s with known | none
        · exact .inl (kept s known)
        · by_cases isId : s = id
          · rw [isId]
            exact .inl here
          · rw [other s isId]
            exact .inr none)
    refine ⟨h, u, result, ext.trans extRest, same.trans sameRest, fun s known => keptRest s (kept s known),
      fun q member => ?_⟩
    rcases List.mem_cons.mp member with rfl | later
    · exact keptRest q here
    · exact all q later

/-- After dispatch every named state has the method it needs. -/
theorem dispatchAll_ok (t : DispatchTable) (inside : ∀ id ∈ g.named.toList, id < g.size)
    (clean : ∀ s : Nat, (g.state s).dispatch = none) :
    Extends t (g.dispatchAll t).2 ∧ SameButDispatch g (g.dispatchAll t).1 ∧
      ∀ id ∈ g.named.toList, Dispatched (g.dispatchAll t).2 ((g.dispatchAll t).1.state id) := by
  obtain ⟨h, u, result, ext, same, _, all⟩ := @dispatchStates_ok g t _ inside fun s => .inr (clean s)
  unfold dispatchAll
  rw [result]
  exact ⟨ext, same, all⟩

theorem hasMethods_dispatchAll (g : Graph) (has : t.HasMethods) :
    (g.dispatchAll t).2.HasMethods := by
  refine List.foldlRecOn (motive := fun made : Graph × DispatchTable => made.2.HasMethods) _ _ has fun made before id _ => ?_
  unfold dispatchState
  dsimp only
  split
  · exact before
  · obtain ⟨ext, serves⟩ := DispatchTable.addMethod_ok made.2 (made.1.state id).moves
    refine DispatchTable.hasMethods_placeMethod (fun place inside => ?_) serves
    rw [DispatchTable.methods_addMethod] at inside
    exact (before place inside).extends ext

end Graph

end TokenTables.Automaton
