/-!
How much a walk over the numbers below a bound has left to visit. Walks that mark what they visit end
because this number falls.
-/

namespace TokenTables

/-- How many numbers below `n` are not in `visited`. -/
def unvisited (n : Nat) (visited : List Nat) : Nat :=
  ((List.range n).filter fun i => !visited.contains i).length

theorem length_filter_lt {α : Type} {p q : α → Bool} {x : α} {xs : List α}
    (weaker : ∀ y, p y = true → q y = true) (mem : x ∈ xs) (new : q x = true) (old : p x = false) :
    (xs.filter p).length < (xs.filter q).length := by
  induction xs with
  | nil => cases mem
  | cons y rest ih =>
    have step : (rest.filter p).length ≤ (rest.filter q).length := by
      have sub : rest.filter p = (rest.filter q).filter p := by
        rw [List.filter_filter]
        congr 1
        funext z
        cases hz : p z with
        | false => rfl
        | true => simp [weaker z hz]
      rw [sub]
      exact List.length_filter_le _ _
    rcases List.mem_cons.mp mem with same | there
    · subst same
      simp only [List.filter_cons, new, old]
      simp only [if_true, List.length_cons, Bool.false_eq_true, if_false]
      omega
    · have fewer := ih there
      simp only [List.filter_cons]
      cases hp : p y with
      | false =>
        cases q y <;> simp <;> omega
      | true =>
        simp [weaker y hp]
        omega

theorem unvisited_cons_lt {n i : Nat} {visited : List Nat} (bound : i < n)
    (fresh : visited.contains i = false) : unvisited n (i :: visited) < unvisited n visited := by
  refine length_filter_lt (x := i) (fun y hy => ?_) (List.mem_range.mpr bound) (by rw [fresh]; rfl) (by simp)
  simp only [List.contains_cons, Bool.not_or, Bool.and_eq_true] at hy
  exact hy.2

end TokenTables
