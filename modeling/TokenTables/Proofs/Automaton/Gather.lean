import TokenTables.Automaton.EpsilonReach
import TokenTables.Proofs.Automaton.Graph
import TokenTables.Proofs.Kind

/-!
One look behind the epsilon moves of a state: what the list gains, where it comes from, and what it means
that the list has not grown.
-/

namespace TokenTables

theorem unvisited_le (n : Nat) (visited : List Nat) : unvisited n visited ≤ n := by
  have le := List.length_filter_le (fun i => !visited.contains i) (List.range n)
  rwa [List.length_range] at le

theorem unvisited_congr {n : Nat} {xs ys : List Nat} (same : ∀ i, i ∈ xs ↔ i ∈ ys) :
    unvisited n xs = unvisited n ys := by
  unfold unvisited
  congr 1
  apply List.filter_congr
  intro i _
  have both : xs.contains i = ys.contains i := by
    rw [Bool.eq_iff_iff, List.contains_iff_mem, List.contains_iff_mem]
    exact same i
  rw [both]

/-- A list that gains a number below the bound has fewer of them left to gain. -/
theorem unvisited_insertNat_lt {n x : Nat} {xs : List Nat} (bound : x < n) (new : x ∉ xs) :
    unvisited n (insertNat x xs) < unvisited n xs := by
  rw [@unvisited_congr n (insertNat x xs) (x :: xs) fun i => by rw [mem_insertNat, List.mem_cons]]
  exact unvisited_cons_lt bound (by simpa using new)

namespace Automaton.Graph

open Kind (NoLater)

variable {g : Graph} {target : Nat} {found : List Nat}

/-! ### One list into another -/

/-- Inserts `id` if it matters and is new. -/
def gatherOne (g : Graph) (found : List Nat) (id : Nat) : List Nat :=
  if (g.state id).matters && !found.contains id then insertNat id found else found

theorem gatherFrom_eq : g.gatherFrom target found = (g.state target).epsilon.foldl g.gatherOne found := rfl

theorem gatherOne_cases (g : Graph) (found : List Nat) (id : Nat) :
    (g.gatherOne found id = insertNat id found ∧ (g.state id).matters = true ∧ id ∉ found) ∨
      (g.gatherOne found id = found ∧ ((g.state id).matters = true → id ∈ found)) := by
  unfold gatherOne
  by_cases matters : (g.state id).matters = true
  · by_cases known : id ∈ found
    · exact .inr ⟨by simp [known], fun _ => known⟩
    · exact .inl ⟨by simp [matters, known], matters, known⟩
  · exact .inr ⟨by simp [matters], fun isTrue => absurd isTrue matters⟩

theorem mem_gatherOne {id x : Nat} :
    x ∈ g.gatherOne found id ↔ x ∈ found ∨ (x = id ∧ (g.state id).matters = true) := by
  rcases gatherOne_cases g found id with ⟨same, matters, _⟩ | ⟨same, known⟩
  · rw [same, mem_insertNat]
    grind
  · rw [same]
    grind

theorem mem_gatherAlong {ids : List Nat} {x : Nat} :
    x ∈ ids.foldl g.gatherOne found ↔ x ∈ found ∨ (x ∈ ids ∧ (g.state x).matters = true) := by
  induction ids generalizing found with
  | nil => simp
  | cons id rest ih =>
    rw [List.foldl_cons, ih, mem_gatherOne, List.mem_cons]
    grind

theorem mem_gatherFrom {x : Nat} : x ∈ g.gatherFrom target found ↔
    x ∈ found ∨ (x ∈ (g.state target).epsilon ∧ (g.state x).matters = true) := mem_gatherAlong

theorem length_le_gatherAlong {ids : List Nat} :
    found.length ≤ (ids.foldl g.gatherOne found).length ∧
      ((ids.foldl g.gatherOne found).length = found.length → ids.foldl g.gatherOne found = found) := by
  induction ids generalizing found with
  | nil => exact ⟨Nat.le_refl _, fun _ => rfl⟩
  | cons id rest ih =>
    rw [List.foldl_cons]
    obtain ⟨le, stable⟩ := @ih (g.gatherOne found id)
    rcases gatherOne_cases g found id with ⟨same, _, new⟩ | ⟨same, _⟩
    · have longer : (g.gatherOne found id).length = found.length + 1 := by rw [same, length_insertNat new]
      exact ⟨by omega, fun short => by omega⟩
    · rw [same] at le stable ⊢
      exact ⟨le, stable⟩

theorem unvisited_gatherAlong {n : Nat} {ids : List Nat} (bound : ∀ x ∈ ids, x < n) :
    (ids.foldl g.gatherOne found).length + unvisited n (ids.foldl g.gatherOne found) ≤
      found.length + unvisited n found := by
  induction ids generalizing found with
  | nil => exact Nat.le_refl _
  | cons id rest ih =>
    rw [List.foldl_cons]
    have later := @ih (g.gatherOne found id) fun x member => bound x (List.mem_cons_of_mem _ member)
    rcases gatherOne_cases g found id with ⟨same, _, new⟩ | ⟨same, _⟩
    · have fewer := unvisited_insertNat_lt (bound id List.mem_cons_self) new
      have longer := length_insertNat new
      rw [same] at later ⊢
      omega
    · rwa [same] at later ⊢

theorem getElem?_gatherAlong {ids : List Nat} {i q : Nat} (here : found[i]? = some q) :
    ∃ j ≥ i, (ids.foldl g.gatherOne found)[j]? = some q := by
  induction ids generalizing found i with
  | nil => exact ⟨i, Nat.le_refl _, here⟩
  | cons id rest ih =>
    rw [List.foldl_cons]
    have next : ∃ j ≥ i, (g.gatherOne found id)[j]? = some q := by
      rcases gatherOne_cases g found id with ⟨same, _, _⟩ | ⟨same, _⟩
      · rw [same]
        exact getElem?_insertNat here
      · rw [same]
        exact ⟨i, Nat.le_refl _, here⟩
    obtain ⟨j, le, there⟩ := next
    obtain ⟨k, le', last⟩ := ih there
    exact ⟨k, Nat.le_trans le le', last⟩

/-! ### Along a list while it grows -/

theorem gather_length_le {places i : Nat} {kind : Option Kind} :
    found.length ≤ (g.gather places i found kind).1.length := by
  induction places generalizing i found kind with
  | zero => exact Nat.le_refl _
  | succ places ih =>
    rw [gather]
    split
    · exact Nat.le_refl _
    · exact (length_le_gatherAlong).1.trans ih

theorem gather_sub {places i : Nat} {kind : Option Kind} {x : Nat} (member : x ∈ found) :
    x ∈ (g.gather places i found kind).1 := by
  induction places generalizing i found kind with
  | zero => exact member
  | succ places ih =>
    rw [gather]
    split
    · exact member
    · exact ih (mem_gatherFrom.mpr (.inl member))

theorem gather_room {places i n : Nat} {kind : Option Kind}
    (bound : ∀ q x : Nat, x ∈ (g.state q).epsilon → x < n) :
    (g.gather places i found kind).1.length + unvisited n (g.gather places i found kind).1 ≤
      found.length + unvisited n found := by
  induction places generalizing i found kind with
  | zero => exact Nat.le_refl _
  | succ places ih =>
    rw [gather]
    split
    · exact Nat.le_refl _
    · rename_i target _
      exact Nat.le_trans ih (unvisited_gatherAlong (bound target))

/-- Whatever is true of a list and of everything behind its members is true of what is gathered. -/
theorem gather_all {P : Nat → Prop} (behind : ∀ q, P q → ∀ x ∈ (g.state q).epsilon, (g.state x).matters → P x)
    {places i : Nat} {kind : Option Kind} (all : ∀ x ∈ found, P x) :
    ∀ x ∈ (g.gather places i found kind).1, P x := by
  induction places generalizing i found kind with
  | zero => exact all
  | succ places ih =>
    rw [gather]
    split
    · exact all
    · rename_i target here
      refine ih fun x member => ?_
      rcases mem_gatherFrom.mp member with old | ⟨new, matters⟩
      · exact all x old
      · exact behind target (all target (List.mem_of_getElem? here)) x new matters

/-- The kind that is gathered was there before or belongs to a state that was looked behind. -/
theorem gather_kind {P : Nat → Prop} (behind : ∀ q, P q → ∀ x ∈ (g.state q).epsilon, (g.state x).matters → P x)
    {places i : Nat} {kind : Option Kind} (all : ∀ x ∈ found, P x) {k : Kind}
    (result : (g.gather places i found kind).2 = some k) :
    kind = some k ∨ ∃ q, P q ∧ (g.state q).kind = some k := by
  induction places generalizing i found kind with
  | zero => exact .inl result
  | succ places ih =>
    rw [gather] at result
    split at result
    · exact .inl result
    · rename_i target here
      have inside := all target (List.mem_of_getElem? here)
      have next : ∀ x ∈ g.gatherFrom target found, P x := by
        intro x member
        rcases mem_gatherFrom.mp member with old | ⟨new, matters⟩
        · exact all x old
        · exact behind target inside x new matters
      rcases ih next result with before | later
      · rcases Kind.better_cases before with old | new
        · exact .inl old
        · exact .inr ⟨target, inside, new⟩
      · exact .inr later

theorem gather_kind_noLater {places i : Nat} {kind : Option Kind} :
    NoLater (g.gather places i found kind).2 kind := by
  induction places generalizing i found kind with
  | zero => exact .refl _
  | succ places ih =>
    rw [gather]
    split
    · exact .refl _
    · exact ih.trans (Kind.better_noLater_left _ _)

/-- What the list gains comes from the list of another member, whose kind has been taken over. -/
theorem gather_from {places i : Nat} {kind : Option Kind} {x : Nat}
    (member : x ∈ (g.gather places i found kind).1) : x ∈ found ∨
      ∃ q ∈ (g.gather places i found kind).1, q ≠ x ∧ x ∈ (g.state q).epsilon ∧
        NoLater (g.gather places i found kind).2 (g.state q).kind := by
  induction places generalizing i found kind with
  | zero => exact .inl member
  | succ places ih =>
    rw [gather] at member ⊢
    split at member
    · exact .inl member
    · rename_i target here
      rcases ih member with before | later
      · by_cases known : x ∈ found
        · exact .inl known
        have inFound : target ∈ found := List.mem_of_getElem? here
        refine .inr ⟨target, gather_sub (mem_gatherFrom.mpr (.inl inFound)), ?_, ?_, ?_⟩
        · rintro rfl
          exact known inFound
        · exact ((mem_gatherFrom.mp before).resolve_left known).1
        · exact gather_kind_noLater.trans (Kind.better_noLater_right _ _)
      · exact .inr later

/-- With enough places every member of the list is looked behind, wherever insertions move it. -/
theorem gather_visits {n : Nat} (bound : ∀ q x : Nat, x ∈ (g.state q).epsilon → x < n) {places i : Nat}
    {kind : Option Kind} (enough : found.length + unvisited n found ≤ places + i) {j q : Nat} (le : i ≤ j)
    (here : found[j]? = some q) : NoLater (g.gather places i found kind).2 (g.state q).kind := by
  induction places generalizing i j found kind with
  | zero =>
    have short := (List.getElem?_eq_some_iff.mp here).1
    omega
  | succ places ih =>
    rw [gather]
    split
    · rename_i out
      have short := (List.getElem?_eq_some_iff.mp here).1
      have beyond := List.getElem?_eq_none_iff.mp out
      omega
    · rename_i target first
      have room := @unvisited_gatherAlong g found n (g.state target).epsilon fun x => bound target x
      rcases Nat.eq_or_lt_of_le le with rfl | later
      · rw [first] at here
        obtain rfl := Option.some.inj here
        exact gather_kind_noLater.trans (Kind.better_noLater_right _ _)
      · obtain ⟨k, moved, there⟩ := @getElem?_gatherAlong g found (g.state target).epsilon j q here
        refine ih ?_ (by omega) there
        rw [gatherFrom_eq]
        omega

/-- A list is gone through by place, from place `i` on and up to its end, while it grows. -/
inductive Gathers (g : Graph) : (i : Nat) → List Nat → Option Kind → List Nat × Option Kind → Prop where
  | past {i found kind} (none : found[i]? = none) : Gathers g i found kind (found, kind)
  | place {i target found kind result} (here : found[i]? = some target)
      (after : Gathers g (i + 1) (g.gatherFrom target found) (Kind.better kind (g.state target).kind) result) :
    Gathers g i found kind result

/-- With enough places the end of the list is reached. -/
theorem gather_gathers {n : Nat} (bound : ∀ q x : Nat, x ∈ (g.state q).epsilon → x < n) {places i : Nat}
    {kind : Option Kind} (enough : found.length + unvisited n found ≤ places + i) :
    Gathers g i found kind (g.gather places i found kind) := by
  induction places generalizing i found kind with
  | zero => exact .past (List.getElem?_eq_none (by omega))
  | succ places ih =>
    rw [gather]
    split
    · rename_i none
      exact .past none
    · rename_i target here
      have room := @unvisited_gatherAlong g found n (g.state target).epsilon fun x => bound target x
      refine .place here (ih ?_)
      rw [gatherFrom_eq]
      omega

/-- A list that already holds everything that matters behind its members stays as it is. -/
theorem gather_fixed (full : ∀ q ∈ found, ∀ x ∈ (g.state q).epsilon, (g.state x).matters = true → x ∈ found)
    {places i : Nat} {kind : Option Kind} : (g.gather places i found kind).1 = found := by
  induction places generalizing i kind with
  | zero => rfl
  | succ places ih =>
    rw [gather]
    split
    · rfl
    · rename_i target here
      have known := full target (List.mem_of_getElem? here)
      have along : ∀ ids : List Nat, (∀ x ∈ ids, (g.state x).matters = true → x ∈ found) →
          ids.foldl g.gatherOne found = found := by
        intro ids inside
        induction ids with
        | nil => rfl
        | cons x rest ihRest =>
          have same : g.gatherOne found x = found := by
            rcases gatherOne_cases g found x with ⟨_, matters, new⟩ | ⟨same, _⟩
            · exact absurd (inside x List.mem_cons_self matters) new
            · exact same
          rw [List.foldl_cons, same]
          exact ihRest fun y member => inside y (List.mem_cons_of_mem _ member)
      rw [gatherFrom_eq, along _ known]
      exact ih

/-- A list that has not grown is as it was, and holds everything that matters behind its members. -/
theorem gather_stable {places i : Nat} {kind : Option Kind}
    (stays : (g.gather places i found kind).1.length = found.length) :
    (g.gather places i found kind).1 = found ∧
      (found.length ≤ places + i → ∀ j q : Nat, i ≤ j → found[j]? = some q →
        ∀ x ∈ (g.state q).epsilon, (g.state x).matters = true → x ∈ found) := by
  induction places generalizing i kind with
  | zero =>
    refine ⟨rfl, fun short j q le here => ?_⟩
    have inside := (List.getElem?_eq_some_iff.mp here).1
    omega
  | succ places ih =>
    rw [gather] at stays ⊢
    split at stays
    · rename_i out
      refine ⟨rfl, fun _ j q le here => ?_⟩
      have inside := (List.getElem?_eq_some_iff.mp here).1
      have beyond := List.getElem?_eq_none_iff.mp out
      omega
    · rename_i target first
      have grew : (g.gatherFrom target found).length = found.length := by
        have low := (@length_le_gatherAlong g found (g.state target).epsilon).1
        have high := @gather_length_le g (g.gatherFrom target found) places (i + 1)
          (Kind.better kind (g.state target).kind)
        rw [gatherFrom_eq] at high stays ⊢
        omega
      have same : g.gatherFrom target found = found := length_le_gatherAlong.2 grew
      rw [same] at stays ⊢
      obtain ⟨fixed, behind⟩ := ih stays
      refine ⟨fixed, fun enough j q le here x member matters => ?_⟩
      rcases Nat.eq_or_lt_of_le le with rfl | later
      · rw [first] at here
        obtain rfl := Option.some.inj here
        rw [← same]
        exact mem_gatherFrom.mpr (.inr ⟨member, matters⟩)
      · exact behind (by omega) j q later here x member matters

end Automaton.Graph

end TokenTables
