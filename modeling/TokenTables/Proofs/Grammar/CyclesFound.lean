import Mathlib.Data.List.Chain
import TokenTables.Proofs.Diagnostic.Log
import TokenTables.Proofs.Grammar.ReferenceLoops
import TokenTables.Proofs.Regex.Subterms

/-!
The walk along references is exact. In the graph of labels an edge goes from each label to those that its expression
mentions. A loop is reported just when this graph has a cycle, and what the walk records are cycles of it.
-/

namespace TokenTables

open Relation (ReflTransGen TransGen)

/-! ### The graph of labels -/

namespace Regex

variable {label : String} {r s : Regex}

/-- The expression refers to `label`, by itself or in one of its parts. -/
inductive Mentions (label : String) : Regex → Prop
  | reference (loc : Location) : Mentions label (.reference loc label)
  | part {loc : Location} {parts : List Regex} {p : Regex} (member : p ∈ parts) (below : Mentions label p) :
    Mentions label (.sequence loc parts)
  | alternative {loc : Location} {alternatives : List Regex} {a : Regex} (member : a ∈ alternatives)
    (below : Mentions label a) : Mentions label (.choice loc alternatives)
  | body {loc : Location} {body : Regex} {least : Nat} {most : Option Nat} (below : Mentions label body) :
    Mentions label (.repetition loc body least most)

theorem Mentions.of_subterm (mentions : s.Mentions label) : ∀ r : Regex, s ∈ r.subterms → r.Mentions label
  | .sequence loc parts, member => by
    rcases List.mem_cons.mp (by simpa only [subterms] using member) with rfl | below
    · exact mentions
    · obtain ⟨p, inside, within⟩ := mem_subtermsOfAll.mp below
      have shorter : p.subterms.length < (sequence loc parts).subterms.length := (partOf_sequence inside).shorter
      exact .part inside (Mentions.of_subterm mentions p within)
  | .choice loc alternatives, member => by
    rcases List.mem_cons.mp (by simpa only [subterms] using member) with rfl | below
    · exact mentions
    · obtain ⟨a, inside, within⟩ := mem_subtermsOfAll.mp below
      have shorter : a.subterms.length < (choice loc alternatives).subterms.length := (partOf_choice inside).shorter
      exact .alternative inside (Mentions.of_subterm mentions a within)
  | .repetition loc repeated least most, member => by
    rcases List.mem_cons.mp (by simpa only [subterms] using member) with rfl | below
    · exact mentions
    · have shorter : repeated.subterms.length < (repetition loc repeated least most).subterms.length :=
        partOf_repetition.shorter
      exact .body (Mentions.of_subterm mentions repeated below)
  | .literal _ _, member | .charClass _ _, member | .reference _ _, member => by
    obtain rfl := List.mem_singleton.mp (by simpa only [subterms] using member)
    exact mentions
termination_by r => r.subterms.length

/-- The walk over an expression meets every label that it mentions. -/
theorem mem_references_iff : label ∈ r.references ↔ r.Mentions label := by
  constructor
  · intro member
    obtain ⟨s, inside, isReference⟩ := List.mem_filterMap.mp member
    cases s with
    | reference loc name =>
      obtain rfl := Option.some.inj isReference
      exact Mentions.of_subterm (.reference loc) r inside
    | _ => cases isReference
  · intro mentions
    induction mentions with
    | reference loc => exact label_mem_references
    | part member _ ih => exact (partOf_sequence member).references ih
    | alternative member _ ih => exact (partOf_choice member).references ih
    | body _ ih => exact partOf_repetition.references ih

end Regex

/-- An edge of the graph of labels: the expression of `label` mentions `other`. -/
def LabelEdge (defs : Definitions) (label other : String) : Prop :=
  ∃ r, defs.lookup label = some r ∧ r.Mentions other

/-- The list goes along edges and ends where it begins. -/
def ClosedWalk (edge : String → String → Prop) (walk : List String) : Prop :=
  ∃ label between, walk = label :: between ++ [label] ∧ walk.IsChain edge

variable {defs : Definitions} {path labels rest cycle : List String} {label other : String} {walk : CycleSearch}

theorem labelEdge_eq (defs : Definitions) : LabelEdge defs = RefersTo defs := by
  funext label other
  simp only [LabelEdge, RefersTo, Regex.mem_references_iff]

theorem ClosedWalk.transGen {edge : String → String → Prop} (closed : ClosedWalk edge cycle) :
    ∃ label, TransGen edge label label := by
  obtain ⟨label, between, rfl, chain⟩ := closed
  refine ⟨label, ?_⟩
  cases between with
  | nil => exact .single (List.isChain_pair.mp chain)
  | cons next later =>
    obtain ⟨first, onward⟩ := List.isChain_cons_cons.mp chain
    exact .head' first (List.relationReflTransGen_of_exists_isChain_cons (later ++ [label]) onward (by simp))

namespace CycleSearch

/-! ### What the walk records -/

/-- The labels to visit are mentioned by the last one on the path, which leads along references. -/
structure OnTrail (defs : Definitions) (path labels : List String) : Prop where
  leads : path.IsChain fun later earlier => RefersTo defs earlier later
  goesOn : ∀ last ∈ path.head?, ∀ l ∈ labels, RefersTo defs last l

theorem OnTrail.extended (trail : OnTrail defs path (label :: rest)) :
    (label :: path).IsChain fun later earlier => RefersTo defs earlier later :=
  List.isChain_cons.mpr ⟨fun last top => trail.goesOn last top label List.mem_cons_self, trail.leads⟩

theorem OnTrail.tail (trail : OnTrail defs path (label :: rest)) : OnTrail defs path rest :=
  ⟨trail.leads, fun last top l member => trail.goesOn last top l (List.mem_cons_of_mem label member)⟩

/-- The references of a label are visited from the trail that leads to it. -/
theorem OnTrail.enter {r : Regex} (trail : OnTrail defs path (label :: rest)) (found : defs.lookup label = some r) :
    OnTrail defs (label :: path) r.references := by
  refine ⟨trail.extended, fun last top l member => ?_⟩
  obtain rfl := Option.some.inj top
  exact ⟨r, found, member⟩

theorem prefix_upTo (onPath : label ∈ path) : path.takeWhile (· != label) ++ [label] <+: path := by
  induction path with
  | nil => cases onPath
  | cons first rest ih =>
    by_cases here : first = label
    · subst here
      simp
    · have later : label ∈ rest := (List.mem_cons.mp onPath).resolve_left (Ne.symm here)
      simpa [here] using ih later

/-- A label that is on the trail already closes a cycle. -/
theorem OnTrail.closedWalk (trail : OnTrail defs path (label :: rest)) (onPath : label ∈ path) :
    ClosedWalk (RefersTo defs) (cycleTo label path) := by
  refine ⟨label, (path.takeWhile (· != label)).reverse, rfl, ?_⟩
  -- Backwards, the cycle is the path up to `label`, and `label` before it.
  have back : cycleTo label path = (label :: (path.takeWhile (· != label) ++ [label])).reverse := by
    simp [cycleTo]
  rw [back, List.isChain_reverse]
  exact trail.extended.prefix ((List.prefix_cons_inj label).mpr (prefix_upTo onPath))

theorem closedWalk_visitAll (path labels : List String) (walk : CycleSearch) (trail : OnTrail defs path labels)
    (before : ∀ c ∈ walk.cycles, ClosedWalk (RefersTo defs) c) :
    ∀ c ∈ (visitAll defs path labels walk).cycles, ClosedWalk (RefersTo defs) c := by
  induction path, labels, walk using visitAll.induct defs with
  | case1 path walk => simpa [visitAll] using before
  | case2 path label rest walk known ih =>
    rw [visitAll_done known]
    exact ih trail.tail before
  | case3 path label rest walk new onPath ih =>
    rw [visitAll_cycle new onPath]
    refine ih trail.tail fun c member => ?_
    rcases List.mem_append.mp member with old | recorded
    · exact before c old
    · obtain rfl := List.mem_singleton.mp recorded
      exact trail.closedWalk (List.contains_iff_mem.mp onPath)
  | case4 path label rest walk new offPath absent ih =>
    rw [visitAll_undefined new offPath absent]
    exact ih trail.tail before
  | case5 path label rest walk new offPath r found inner ihInner ihRest =>
    rw [visitAll_defined new offPath found]
    exact ihRest trail.tail (ihInner (trail.enter found) before)

end CycleSearch

namespace Grammar

variable {g : Grammar}

/-- What the walk from all labels records are cycles of references. -/
theorem closedWalk_of_referenceCycles (member : cycle ∈ g.referenceCycles) : ClosedWalk (RefersTo g.definitions) cycle :=
  CycleSearch.closedWalk_visitAll [] g.labelsByKind {} ⟨.nil, fun _ none => nomatch none⟩ (fun _ none => nomatch none)
    cycle member

theorem code_loopReports {d : Diagnostic} (member : d ∈ g.loopReports) : d.isError = true ∧ d.code = .referenceLoop := by
  obtain ⟨cycle, _, reported⟩ := List.mem_filterMap.mp member
  obtain ⟨label, _, reported⟩ := Option.bind_eq_some_iff.mp reported
  obtain ⟨start, _, reported⟩ := Option.bind_eq_some_iff.mp reported
  obtain rfl := Option.some.inj reported
  exact ⟨rfl, rfl⟩

/-- A log that drops nothing holds an error about a loop of references just when the graph of labels has a cycle. Each
cycle recorded begins and ends with one label, and each label in it mentions the next. -/
theorem loops_reported (g : Grammar) :
    let log := DiagnosticLog.reportAll { policy := .unlimited } (g.loopReports.map .always)
    ((∃ d ∈ log.pending, d.isError = true ∧ d.code = .referenceLoop) ↔
      ∃ label, TransGen (LabelEdge g.definitions) label label) ∧
    ∀ cycle ∈ g.referenceCycles, ClosedWalk (LabelEdge g.definitions) cycle := by
  intro log
  rw [labelEdge_eq]
  have kept : log.pending = g.loopReports := DiagnosticLog.pending_reportAll_unlimited rfl _
  rw [kept]
  refine ⟨⟨?_, ?_⟩, fun cycle member => closedWalk_of_referenceCycles member⟩
  · rintro ⟨d, member, _⟩
    obtain ⟨cycle, recorded, _⟩ := List.mem_filterMap.mp member
    exact (closedWalk_of_referenceCycles recorded).transGen
  · rintro ⟨label, back⟩
    have some : g.loopReports ≠ [] := fun none => (ends_of_loopReports none label).not_back back
    obtain ⟨d, member⟩ := List.exists_mem_of_ne_nil _ some
    exact ⟨d, member, code_loopReports member⟩

end Grammar

end TokenTables
