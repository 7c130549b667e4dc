import TokenTables.Proofs.Automaton.ReferenceCycles

/-!
Building comes through. An expression without faults, over definitions without faults or loops, is built in any
graph, and the bound on the nesting of expressions is never reached.
-/

namespace TokenTables.Automaton

/-! ### Expressions without faults or loops -/

/-- An expression without faults that is met inside the expansion of the `entered` labels, none of which it leads back
to. -/
structure Fits (defs : Definitions) (entered : List String) (r : Regex) : Prop where
  faultless : ∀ s ∈ r.subterms, s.nodeFaults defs = []
  below : ∀ label ∈ entered, ∀ other ∈ r.references, Relation.TransGen (RefersTo defs) label other

variable {defs : Definitions} {entered : List String} {r : Regex}

theorem Fits.faults (fits : Fits defs entered r) : r.nodeFaults defs = [] := fits.faultless r r.self_mem_subterms

theorem Fits.part (fits : Fits defs entered r) {p : Regex} (part : Regex.PartOf p r) : Fits defs entered p where
  faultless s inside := fits.faultless s (part.subterms inside)
  below label member other refers := fits.below label member other (part.references refers)

/-- Definitions whose expansion ends. -/
structure Expandable (defs : Definitions) : Prop where
  faultless : ∀ label r, defs.lookup label = some r → ∀ s ∈ r.subterms, s.nodeFaults defs = []
  ends : ∀ label, Ends defs label

theorem Fits.not_entered (fits : Fits defs entered r) (expandable : Expandable defs) {label : String}
    (refers : label ∈ r.references) : label ∉ entered :=
  fun member => (expandable.ends label).not_back (fits.below label member label refers)

theorem Fits.enter {loc : Location} {label : String} (fits : Fits defs entered (.reference loc label))
    (expandable : Expandable defs) (found : defs.lookup label = some r) : Fits defs (label :: entered) r where
  faultless := expandable.faultless label r found
  below := by
    intro outer member other refers
    have step : RefersTo defs label other := ⟨r, found, refers⟩
    rcases List.mem_cons.mp member with rfl | before
    · exact .single step
    · exact (fits.below outer before label Regex.label_mem_references).tail step

theorem spliceChoices_fits (expandable : Expandable defs) (active splicing : List String)
    (alternatives : List Regex) (fit : ∀ a ∈ alternatives, ∃ entered, active ⊆ entered ∧ splicing ⊆ entered ∧
      Fits defs entered a) :
    ∃ all, spliceChoices defs active splicing alternatives = .ok all ∧
      ∀ a ∈ all, ∃ entered, active ⊆ entered ∧ Fits defs entered a := by
  induction splicing, alternatives using spliceChoices.induct defs active with
  | case1 splicing => exact ⟨[], by rw [spliceChoices], by simp⟩
  | case2 splicing loc inner rest ihInner ihRest =>
    obtain ⟨⟨entered, actives, splices, fits⟩, later⟩ := List.forall_mem_cons.mp fit
    obtain ⟨here, first, fitHere⟩ := ihInner fun a member =>
      ⟨entered, actives, splices, fits.part (Regex.partOf_choice member)⟩
    obtain ⟨others, second, fitOthers⟩ := ihRest later
    refine ⟨here ++ others, by rw [spliceChoices, first, second]; rfl, ?_⟩
    simpa only [List.mem_append, or_imp, forall_and] using ⟨fitHere, fitOthers⟩
  | case3 splicing loc label rest written inner found fresh ihInner ihRest =>
    obtain ⟨⟨entered, actives, splices, fits⟩, later⟩ := List.forall_mem_cons.mp fit
    have body := fits.enter expandable found
    obtain ⟨here, first, fitHere⟩ := ihInner fun a member =>
      ⟨label :: entered, fun l inside => List.mem_cons_of_mem _ (actives inside),
        List.cons_subset_cons label splices, body.part (Regex.partOf_choice member)⟩
    obtain ⟨others, second, fitOthers⟩ := ihRest later
    refine ⟨here ++ others, ?_, ?_⟩
    · rw [spliceChoices_reference, found]
      dsimp only
      rw [if_pos fresh, first, second]
      rfl
    · simpa only [List.mem_append, or_imp, forall_and] using ⟨fitHere, fitOthers⟩
  | case4 splicing loc label rest written inner found stale =>
    obtain ⟨⟨entered, actives, splices, fits⟩, _⟩ := List.forall_mem_cons.mp fit
    have fresh := fits.not_entered expandable Regex.label_mem_references
    refine absurd ⟨?_, ?_⟩ stale
    · simpa using fun member => fresh (splices member)
    · simpa using fun member => fresh (actives member)
  | case5 splicing loc label rest other ihRest =>
    obtain ⟨⟨entered, actives, splices, fits⟩, later⟩ := List.forall_mem_cons.mp fit
    obtain ⟨others, second, fitOthers⟩ := ihRest later
    refine ⟨.reference loc label :: others, ?_, List.forall_mem_cons.mpr ⟨⟨entered, actives, fits⟩, fitOthers⟩⟩
    rw [spliceChoices_reference]
    split
    · rename_i found
      exact absurd found (other _ _)
    · rw [second]
      rfl
  | case6 splicing r rest notChoice notReference ihRest =>
    obtain ⟨⟨entered, actives, splices, fits⟩, later⟩ := List.forall_mem_cons.mp fit
    obtain ⟨others, second, fitOthers⟩ := ihRest later
    refine ⟨r :: others, ?_, List.forall_mem_cons.mpr ⟨⟨entered, actives, fits⟩, fitOthers⟩⟩
    rw [spliceChoices, second]
    · rfl
    · exact notChoice
    · exact notReference

/-! ### No fault -/

theorem outOfRange?_none {loc : Location} {written : String}
    (fine : (Regex.literal loc written).nodeFaults defs = []) : outOfRange? loc written.toList = none := by
  simpa [Regex.nodeFaults] using fine

theorem findSome?_fault?_none {loc : Location} {cls : CharClass}
    (fine : (Regex.charClass loc cls).nodeFaults defs = []) : cls.items.findSome? (·.fault? loc) = none :=
  List.findSome?_eq_none_iff.mpr (List.filterMap_eq_nil_iff.mp fine)

theorem charsFault?_none (fine : r.nodeFaults defs = []) : charsFault? r = none := by
  unfold charsFault? singleChars?
  split
  · exact findSome?_fault?_none fine
  · rename_i loc written
    split
    · rename_i c only
      have small := outOfRange?_none fine
      rw [only] at small
      simpa [ClassPart.fault?, ClassPart.first, ClassPart.last, Regex.location] using small
    · rfl
  · rfl

/-- A task whose expression fits. -/
def Task.Fits (defs : Definitions) (task : Task) : Prop :=
  ∃ entered, task.active ⊆ entered ∧ Automaton.Fits defs entered task.regex

/-- Nothing is wrong at the top of an expression that fits, and everything below it fits. -/
theorem nextTasks_of_fits (expandable : Expandable defs) {task : Task} (fit : task.Fits defs) :
    ∃ tasks, nextTasks defs task = .ok tasks ∧ ∀ t ∈ tasks, t.Fits defs := by
  obtain ⟨active, r⟩ := task
  obtain ⟨entered, actives, fits⟩ := fit
  cases r with
  | literal loc written => exact ⟨[], by simp [nextTasks, outOfRange?_none fits.faults], by simp⟩
  | charClass loc cls => exact ⟨[], by simp [nextTasks, findSome?_fault?_none fits.faults], by simp⟩
  | sequence loc parts =>
    refine ⟨_, rfl, List.forall_mem_map.mpr fun p member => ?_⟩
    exact ⟨entered, actives, fits.part (Regex.partOf_sequence member)⟩
  | choice loc alternatives =>
    obtain ⟨all, spliced, fitAll⟩ := spliceChoices_fits expandable active [] alternatives
      fun a member => ⟨entered, actives, by simp, fits.part (Regex.partOf_choice member)⟩
    have fine : all.findSome? charsFault? = none := List.findSome?_eq_none_iff.mpr fun a member => by
      obtain ⟨_, _, inner⟩ := fitAll a member
      exact charsFault?_none inner.faults
    refine ⟨_, nextTasks_choice spliced fine, List.forall_mem_map.mpr fun a member => ?_⟩
    exact fitAll a (List.mem_of_mem_filter member)
  | repetition loc body least most =>
    have ordered : ¬ most.any (· < least) = true := by
      cases most with
      | none => simp
      | some bound => simpa [Regex.nodeFaults] using fits.faults
    refine ⟨_, if_neg ordered, ?_⟩
    split
    · simp
    · exact List.forall_mem_singleton.mpr ⟨entered, actives, fits.part Regex.partOf_repetition⟩
  | reference loc label =>
    have defined := fits.faults
    cases found : defs.lookup label with
    | none => simp [Regex.nodeFaults, found] at defined
    | some body =>
      have fresh := fits.not_entered expandable Regex.label_mem_references
      have inactive : ¬ active.contains label = true := fun member => fresh (actives (List.contains_iff_mem.mp member))
      refine ⟨_, nextTasks_reference found inactive, List.forall_mem_singleton.mpr ?_⟩
      exact ⟨label :: entered, List.cons_subset_cons label actives, fits.enter expandable found⟩

/-- Wherever an expression fits, the dry run finds no fault, unless it is cut off. -/
theorem fault?_of_fits (expandable : Expandable defs) {task : Task} (fit : task.Fits defs) {depth : Nat}
    (enough : Enough defs depth task) : fault? defs depth task = none := by
  have finds : ∀ depth (task : Task), task.Fits defs → ∀ f, fault? defs depth task = some f → CutOff (some f) := by
    intro depth
    induction depth with
    | zero =>
      intro task _ f found
      exact found ▸ ⟨_, rfl⟩
    | succ depth ih =>
      intro task fit f found
      obtain ⟨tasks, next, fitAll⟩ := nextTasks_of_fits expandable fit
      rw [fault?_ok next] at found
      obtain ⟨t, member, foundThere⟩ := List.exists_of_findSome?_eq_some found
      exact ih t (fitAll t member) f foundThere
  cases found : fault? defs depth task with
  | none => rfl
  | some f => exact absurd (found ▸ finds depth task fit f found) enough

theorem Expandable.splicingEnds (expandable : Expandable defs) (r : Regex) : SplicingEndsIn defs r :=
  fun _ _ looping _ loop => (expandable.ends looping).not_back
    (Relation.TransGen.mono (fun _ _ => SplicedInto.refersTo) _ _ loop)

/-- Expressions without faults are built, over definitions without faults or loops. -/
theorem Graph.build_comes_through (settings : BuildSettings)
    (faultless : ∀ label r, settings.definitions.lookup label = some r → r.faults settings.definitions = [])
    (ends : ∀ label, Ends settings.definitions label) (fine : r.faults settings.definitions = []) (g : Graph) :
    ∃ f, (g.build settings r).outcome = .ok f := by
  have expandable : Expandable settings.definitions :=
    { faultless := fun label body found => List.flatMap_eq_nil_iff.mp (faultless label body found)
      ends := ends }
  have fit : Task.Fits settings.definitions ⟨[], r⟩ :=
    ⟨[], by simp, { faultless := List.flatMap_eq_nil_iff.mp fine, below := by simp }⟩
  obtain ⟨depth, enough⟩ := enough_of_acc ((expandable.splicingEnds r).acc_leads [])
  rcases g.build_stops settings r with ⟨_, built⟩ | ⟨_, stopped, _⟩
  · exact built
  · rw [fault?_of_fits expandable fit enough.depthBound] at stopped
    cases stopped

end TokenTables.Automaton
