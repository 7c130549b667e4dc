import TokenTables.Kind

/-!
Comparing kinds that may be missing.
-/

namespace TokenTables.Kind

/-- `a` is a kind no later than `b`, if `b` is a kind at all. -/
def NoLater (a b : Option Kind) : Prop := ∀ k : Nat, b = some k → ∃ first : Nat, first ≤ k ∧ a = some first

theorem NoLater.refl (a : Option Kind) : NoLater a a := fun k same => ⟨k, Nat.le_refl _, same⟩

theorem NoLater.trans {a b c : Option Kind} (ab : NoLater a b) (bc : NoLater b c) : NoLater a c := by
  intro k same
  obtain ⟨second, le, sameB⟩ := bc k same
  obtain ⟨first, le', sameA⟩ := ab second sameB
  exact ⟨first, Nat.le_trans le' le, sameA⟩

theorem NoLater.none (a : Option Kind) : NoLater a none := fun _ same => nomatch same

theorem NoLater.antisymm {a b : Option Kind} (ab : NoLater a b) (ba : NoLater b a) : a = b := by
  cases b with
  | none =>
    cases a with
    | none => rfl
    | some k =>
      obtain ⟨_, _, impossible⟩ := ba k rfl
      cases impossible
  | some k =>
    obtain ⟨first, le, rfl⟩ := ab k rfl
    obtain ⟨second, le', same⟩ := ba first rfl
    obtain rfl := Option.some.inj same
    exact congrArg some (Nat.le_antisymm le le')

@[simp] theorem better_none_left (a : Option Kind) : better none a = a := by
  cases a <;> rfl

@[simp] theorem better_none_right (a : Option Kind) : better a none = a := by
  cases a <;> rfl

theorem better_noLater_left (a b : Option Kind) : NoLater (better a b) a := by
  intro k same
  subst same
  cases b with
  | none => exact ⟨k, Nat.le_refl _, rfl⟩
  | some other => exact ⟨min k other, Nat.min_le_left _ _, rfl⟩

theorem better_noLater_right (a b : Option Kind) : NoLater (better a b) b := by
  intro k same
  subst same
  cases a with
  | none => exact ⟨k, Nat.le_refl _, rfl⟩
  | some other => exact ⟨min other k, Nat.min_le_right _ _, rfl⟩

/-- The better of two kinds is one of them. -/
theorem better_cases {a b : Option Kind} {k : Kind} (same : better a b = some k) : a = some k ∨ b = some k := by
  cases a with
  | none => exact .inr (by simpa using same)
  | some first =>
    cases b with
    | none => exact .inl (by simpa using same)
    | some second =>
      have min : some (Nat.min first second) = some k := same
      obtain rfl := Option.some.inj min
      rcases Nat.le_total first second with le | le
      · exact .inl (congrArg some (Nat.min_eq_left le).symm)
      · exact .inr (congrArg some (Nat.min_eq_right le).symm)

/-- The best of the kinds of which `P` is true, none if there are none. -/
structure IsBest (best : Option Kind) (P : Option Kind → Prop) : Prop where
  found : ∀ k : Nat, best = some k → P (some k)
  first : ∀ a, P a → NoLater best a

theorem IsBest.unique {a b : Option Kind} {P : Option Kind → Prop} (one : IsBest a P) (two : IsBest b P) : a = b := by
  have le : ∀ {a b : Option Kind}, IsBest a P → IsBest b P → NoLater a b := by
    intro a b one two k same
    exact one.first (some k) (two.found k same) k rfl
  exact (le one two).antisymm (le two one)

theorem IsBest.congr {a : Option Kind} {P Q : Option Kind → Prop} (best : IsBest a P)
    (same : ∀ k : Nat, P (some k) ↔ Q (some k)) : IsBest a Q where
  found k found := (same k).mp (best.found k found)
  first b holds := by
    cases b with
    | none => exact .none _
    | some k => exact best.first _ ((same k).mpr holds)

theorem IsBest.single (a : Option Kind) : IsBest a (· = a) where
  found _ same := same.symm
  first b same := by
    rw [same]
    exact .refl _

theorem IsBest.better {a b : Option Kind} {P : Option Kind → Prop} (best : IsBest a P) :
    IsBest (better a b) fun c => P c ∨ c = b where
  found k same := by
    rcases better_cases same with old | new
    · exact .inl (best.found k old)
    · exact .inr new.symm
  first c holds := by
    rcases holds with old | rfl
    · exact (better_noLater_left a b).trans (best.first c old)
    · exact better_noLater_right a c

end TokenTables.Kind
