import Mathlib.Logic.Relation
import TokenTables.Grammar.Check.ReferenceLoops

/-!
The walk along references. If it finds no cycle then references lead to an end, whatever label they begin at.
-/

namespace TokenTables

/-- The definition of `label` mentions `other`. -/
def RefersTo (defs : Definitions) (label other : String) : Prop :=
  ∃ r, defs.lookup label = some r ∧ other ∈ r.references

/-- Along references from `label` one comes to an end. -/
abbrev Ends (defs : Definitions) : String → Prop := Acc fun other label => RefersTo defs label other

variable {defs : Definitions} {path labels rest : List String} {label : String} {walk : CycleSearch}

theorem ends_of_undefined (absent : defs.lookup label = none) : Ends defs label := by
  constructor
  rintro other ⟨r, found, _⟩
  rw [absent] at found
  cases found

theorem ends_of_references {r : Regex} (found : defs.lookup label = some r)
    (below : ∀ other ∈ r.references, Ends defs other) : Ends defs label := by
  constructor
  rintro other ⟨s, again, member⟩
  obtain rfl := Option.some.inj (again.symm.trans found)
  exact below other member

/-- What leads to an end does not come back to itself. -/
theorem not_back_of_acc {α : Type} {leads : α → α → Prop} {a : α} (ends : Acc (fun b a => leads a b) a) :
    ¬ Relation.TransGen leads a a := by
  induction ends with
  | intro a _ ih =>
    intro loop
    obtain ⟨b, first, rest⟩ := Relation.TransGen.head'_iff.mp loop
    exact ih b first (Relation.TransGen.tail' rest first)

theorem Ends.not_back (ends : Ends defs label) : ¬ Relation.TransGen (RefersTo defs) label label :=
  not_back_of_acc ends

namespace CycleSearch

/-! ### One label -/

theorem visitAll_done (known : walk.done.contains label = true) :
    visitAll defs path (label :: rest) walk = visitAll defs path rest walk := by
  rw [visitAll, if_pos known]

theorem visitAll_cycle (new : ¬ walk.done.contains label = true) (onPath : path.contains label = true) :
    visitAll defs path (label :: rest) walk =
      visitAll defs path rest { walk with cycles := walk.cycles ++ [cycleTo label path] } := by
  rw [visitAll, if_neg new, dif_pos onPath]

theorem visitAll_undefined (new : ¬ walk.done.contains label = true) (offPath : ¬ path.contains label = true)
    (absent : defs.lookup label = none) :
    visitAll defs path (label :: rest) walk = visitAll defs path rest walk := by
  rw [visitAll, if_neg new, dif_neg offPath]
  split <;> simp_all

/-- The walk once the references of `label` have been followed. -/
def followed (defs : Definitions) (path : List String) (label : String) (r : Regex) (walk : CycleSearch) : CycleSearch :=
  let walk := visitAll defs (label :: path) r.references walk
  { walk with done := label :: walk.done }

theorem visitAll_defined {r : Regex} (new : ¬ walk.done.contains label = true)
    (offPath : ¬ path.contains label = true) (found : defs.lookup label = some r) :
    visitAll defs path (label :: rest) walk = visitAll defs path rest (followed defs path label r walk) := by
  rw [visitAll, if_neg new, dif_neg offPath]
  split
  · simp_all
  · rename_i s again
    obtain rfl := Option.some.inj (again.symm.trans found)
    rfl

/-! ### Cycles -/

/-- Cycles are only added. -/
theorem cycles_visitAll (defs : Definitions) (path labels : List String) (walk : CycleSearch) :
    walk.cycles <+: (visitAll defs path labels walk).cycles := by
  induction path, labels, walk using visitAll.induct defs with
  | case1 path walk => simp [visitAll]
  | case2 path label rest walk known ih => rwa [visitAll_done known]
  | case3 path label rest walk new onPath ih =>
    rw [visitAll_cycle new onPath]
    exact (List.prefix_append _ _).trans ih
  | case4 path label rest walk new offPath absent ih => rwa [visitAll_undefined new offPath absent]
  | case5 path label rest walk new offPath r found inner ihInner ihRest =>
    rw [visitAll_defined new offPath found]
    exact ihInner.trans ihRest

/-- If no cycle is found then references end at every label visited and at every one that is done. -/
theorem ends_of_visitAll (path labels : List String) (walk : CycleSearch)
    (done : ∀ l ∈ walk.done, Ends defs l) (none : (visitAll defs path labels walk).cycles = []) :
    (∀ l ∈ labels, Ends defs l) ∧ ∀ l ∈ (visitAll defs path labels walk).done, Ends defs l := by
  induction path, labels, walk using visitAll.induct defs with
  | case1 path walk => simpa [visitAll] using done
  | case2 path label rest walk known ih =>
    rw [visitAll_done known] at none ⊢
    obtain ⟨others, after⟩ := ih done none
    exact ⟨List.forall_mem_cons.mpr ⟨done label (List.contains_iff_mem.mp known), others⟩, after⟩
  | case3 path label rest walk new onPath ih =>
    rw [visitAll_cycle new onPath] at none
    have kept := cycles_visitAll defs path rest { walk with cycles := walk.cycles ++ [cycleTo label path] }
    rw [none, List.prefix_nil] at kept
    simp at kept
  | case4 path label rest walk new offPath absent ih =>
    rw [visitAll_undefined new offPath absent] at none ⊢
    obtain ⟨others, after⟩ := ih done none
    exact ⟨List.forall_mem_cons.mpr ⟨ends_of_undefined absent, others⟩, after⟩
  | case5 path label rest walk new offPath r found inner ihInner ihRest =>
    rw [visitAll_defined new offPath found] at none ⊢
    have noneInner : inner.cycles = [] := by
      have kept := cycles_visitAll defs path rest (followed defs path label r walk)
      rwa [none, List.prefix_nil] at kept
    obtain ⟨below, afterInner⟩ := ihInner done noneInner
    have here := ends_of_references found below
    obtain ⟨others, after⟩ := ihRest (List.forall_mem_cons.mpr ⟨here, afterInner⟩) none
    exact ⟨List.forall_mem_cons.mpr ⟨here, others⟩, after⟩

/-- Every cycle begins with a label that has a definition. -/
def Defined (defs : Definitions) (cycle : List String) : Prop :=
  ∃ label r, cycle.head? = some label ∧ defs.lookup label = some r

theorem defined_visitAll (path labels : List String) (walk : CycleSearch)
    (onPath : ∀ l ∈ path, (defs.lookup l).isSome = true) (before : ∀ c ∈ walk.cycles, Defined defs c) :
    ∀ c ∈ (visitAll defs path labels walk).cycles, Defined defs c := by
  induction path, labels, walk using visitAll.induct defs with
  | case1 path walk => simpa [visitAll] using before
  | case2 path label rest walk known ih =>
    rw [visitAll_done known]
    exact ih onPath before
  | case3 path label rest walk new member ih =>
    rw [visitAll_cycle new member]
    obtain ⟨r, found⟩ := Option.isSome_iff_exists.mp (onPath label (List.contains_iff_mem.mp member))
    apply ih onPath
    simp only [List.mem_append, List.mem_singleton, or_imp, forall_and, forall_eq]
    exact ⟨before, label, r, rfl, found⟩
  | case4 path label rest walk new offPath absent ih =>
    rw [visitAll_undefined new offPath absent]
    exact ih onPath before
  | case5 path label rest walk new offPath r found inner ihInner ihRest =>
    rw [visitAll_defined new offPath found]
    apply ihRest onPath
    exact ihInner (List.forall_mem_cons.mpr ⟨by rw [found]; rfl, onPath⟩) before

end CycleSearch

namespace Grammar

variable {g : Grammar}

theorem mem_labelsByKind {label : String} : label ∈ g.labelsByKind ↔ ∃ r, (label, r) ∈ g.definitions := by
  simp only [labelsByKind, definitions, List.mem_map, List.mem_mergeSort, Prod.exists, exists_and_right,
    exists_eq_right, Prod.mk.injEq]
  grind

/-- A grammar without reports on loops has no loops. -/
theorem ends_of_loopReports (none : g.loopReports = []) (label : String) : Ends g.definitions label := by
  have start : ∀ c ∈ ({} : CycleSearch).cycles, CycleSearch.Defined g.definitions c := by simp
  have noCycles : g.referenceCycles = [] := by
    rw [List.eq_nil_iff_forall_not_mem]
    intro cycle member
    obtain ⟨l, r, head, found⟩ := CycleSearch.defined_visitAll [] g.labelsByKind {} (by simp) start cycle member
    have reported := List.filterMap_eq_nil_iff.mp none cycle member
    simp [loopReport, head, found] at reported
  obtain ⟨visited, _⟩ := CycleSearch.ends_of_visitAll [] g.labelsByKind {} (by simp) noCycles
  cases found : g.definitions.lookup label with
  | none => exact ends_of_undefined found
  | some r => exact visited label (mem_labelsByKind.mpr ⟨r, mem_of_lookup found⟩)

end Grammar

end TokenTables
