import TokenTables.Regex
import TokenTables.Unvisited

/-!
Labelled expressions. Whatever expands references ends when it expands no label inside its own expansion,
since each level leaves fewer labels.
-/

namespace TokenTables

/-- Labelled expressions; of two with one label the first counts. -/
abbrev Definitions := List (String × Regex)

theorem mem_of_lookup {α : Type} {named : List (String × α)} {label : String} {x : α}
    (found : named.lookup label = some x) : (label, x) ∈ named := by
  induction named with
  | nil => cases found
  | cons d rest ih =>
    obtain ⟨l, y⟩ := d
    simp only [List.lookup_cons] at found
    split at found
    · rename_i same
      obtain rfl := beq_iff_eq.mp same
      obtain rfl := Option.some.inj found
      exact List.mem_cons_self
    · exact List.mem_cons_of_mem _ (ih found)

/-- How many definitions are not being expanded. -/
def unexpanded (defs : Definitions) (expanding : List String) : Nat :=
  (defs.filter fun d => !expanding.contains d.1).length

theorem unexpanded_cons_lt {defs : Definitions} {expanding : List String} {label : String} {r : Regex}
    (found : defs.lookup label = some r) (fresh : expanding.contains label = false) :
    unexpanded defs (label :: expanding) < unexpanded defs expanding := by
  refine length_filter_lt (x := (label, r)) (fun d hd => ?_) (mem_of_lookup found)
    (by rw [fresh]; rfl) (by simp)
  simp only [List.contains_cons, Bool.not_or, Bool.and_eq_true] at hd
  exact hd.2

end TokenTables
