import Mathlib
import TokenTables.Proofs.Automaton.BuildDepth
import TokenTables.Proofs.Grammar.ReferenceLoops

/-!
References that lead back to themselves. An expression that leads to one is not built: as a rule building stops at a
fault. Where a choice is spliced into itself it need not end at all, since a label counts as spliced only until its
alternatives are gathered, not while they are built.
-/

namespace TokenTables.Automaton

open Relation (ReflTransGen TransGen)

variable {defs : Definitions} {r s body : Regex} {label other : String} {task t : Task} {tasks : List Task}

/-! ### Choices that are spliced into themselves -/

/-- `label` stands for a choice, and `other` is spliced into some choice in it. -/
def SplicedInto (defs : Definitions) (label other : String) : Prop :=
  ∃ loc inner, defs.lookup label = some (.choice loc inner) ∧ Splices defs (.choice loc inner) other

theorem Splices.refers (splices : Splices defs r label) : label ∈ r.references := by
  obtain ⟨_, loc, alternatives, at', member, inside⟩ := splices
  exact List.mem_filterMap.mpr ⟨.reference at' label,
    Regex.subterms_subset member ((Regex.partOf_choice inside).subterms (Regex.self_mem_subterms _)), rfl⟩

theorem Splices.isChoice (splices : Splices defs r label) (found : defs.lookup label = some body) :
    ∃ loc inner, body = .choice loc inner := by
  obtain ⟨⟨loc, inner, again⟩, _⟩ := splices
  exact ⟨loc, inner, Option.some.inj (found.symm.trans again)⟩

theorem Splices.of_subterm (splices : Splices defs s label) (inside : s ∈ r.subterms) : Splices defs r label := by
  obtain ⟨isChoice, loc, alternatives, at', member, among⟩ := splices
  exact ⟨isChoice, loc, alternatives, at', Regex.subterms_subset inside member, among⟩

theorem SplicedInto.refersTo (spliced : SplicedInto defs label other) : RefersTo defs label other := by
  obtain ⟨loc, inner, found, splices⟩ := spliced
  exact ⟨.choice loc inner, found, splices.refers⟩

/-- No choice that `label` leads to is spliced into itself. -/
def SplicingEnds (defs : Definitions) (label : String) : Prop :=
  ∀ looping, ReflTransGen (RefersTo defs) label looping → ¬ TransGen (SplicedInto defs) looping looping

theorem SplicingEnds.next (ends : SplicingEnds defs label) (refers : RefersTo defs label other) :
    SplicingEnds defs other := fun looping way => ends looping (way.head refers)

theorem SplicingEnds.acc_of_path {label : String} (ends : SplicingEnds defs label) (path : List String)
    (before : ∀ l ∈ path, TransGen (SplicedInto defs) l label) :
    Acc (fun other label => SplicedInto defs label other) label := by
  constructor
  intro other step
  obtain ⟨loc, inner, found, _⟩ := id step
  -- A label that came up again on the path would be spliced into itself.
  have fresh : path.contains label = false := by
    rw [List.contains_eq_mem, decide_eq_false_iff_not]
    exact fun again => ends label .refl (before label again)
  refine (ends.next step.refersTo).acc_of_path (label :: path) (List.forall_mem_cons.mpr ⟨.single step, ?_⟩)
  exact fun l member => (before l member).tail step
termination_by unexpanded defs path
decreasing_by exact unexpanded_cons_lt found fresh

theorem SplicingEnds.acc (ends : SplicingEnds defs label) :
    Acc (fun other label => SplicedInto defs label other) label := ends.acc_of_path [] (by simp)

/-! ### Without them building ends -/

theorem acc_metIn_of_spliced
    (below : ∀ label body, Splices defs r label → defs.lookup label = some body →
      ∀ s ∈ body.subterms, Acc (MetIn defs) s)
    {s : Regex} (inside : s ∈ r.subterms) : Acc (MetIn defs) s := by
  constructor
  intro p met
  cases met with
  -- Going down to parts ends by itself.
  | part part => exact acc_metIn_of_spliced below (Regex.subterms_subset inside (part.subterms p.self_mem_subterms))
  | spliced splices found member => exact below _ _ (splices.of_subterm inside) found p member
termination_by s.subterms.length
decreasing_by exact part.shorter

theorem acc_metIn_of_label (ends : Acc (fun other label => SplicedInto defs label other) label)
    (found : defs.lookup label = some body) (isChoice : ∃ loc inner, body = .choice loc inner) :
    ∀ s ∈ body.subterms, Acc (MetIn defs) s := by
  induction ends generalizing body with
  | intro label _ ih =>
    obtain ⟨loc, inner, rfl⟩ := isChoice
    intro s inside
    refine acc_metIn_of_spliced (fun _ _ splices foundOther => ?_) inside
    exact ih _ ⟨loc, inner, found, splices⟩ foundOther (splices.isChoice foundOther)

/-- No choice that the references of `r` lead to is spliced into itself. -/
def SplicingEndsIn (defs : Definitions) (r : Regex) : Prop := ∀ label ∈ r.references, SplicingEnds defs label

theorem SplicingEndsIn.of_subset (ends : SplicingEndsIn defs r) (fewer : s.references ⊆ r.references) : SplicingEndsIn defs s :=
  fun label member => ends label (fewer member)

theorem SplicingEndsIn.definition (ends : SplicingEndsIn defs r) (refers : label ∈ r.references)
    (found : defs.lookup label = some body) : SplicingEndsIn defs body :=
  fun _ member => (ends label refers).next ⟨body, found, member⟩

theorem SplicingEndsIn.metIn (ends : SplicingEndsIn defs r) (met : MetIn defs s r) : SplicingEndsIn defs s := by
  cases met with
  | part part => exact ends.of_subset part.references
  | spliced splices found member =>
    exact (ends.definition splices.refers found).of_subset (Regex.references_subset member)

theorem SplicingEndsIn.acc_metIn (ends : SplicingEndsIn defs r) : Acc (MetIn defs) r := by
  refine acc_metIn_of_spliced (fun label body splices found => ?_) r.self_mem_subterms
  exact acc_metIn_of_label (ends label splices.refers).acc found (splices.isChoice found)

theorem SplicingEndsIn.acc_leads {r : Regex} (ends : SplicingEndsIn defs r) (active : List String) :
    Acc (fun t task => Task.Leads defs task t) ⟨active, r⟩ := by
  have acc : Acc (TransGen (MetIn defs)) r := ends.acc_metIn.transGen
  induction acc with
  | intro r _ ih =>
    constructor
    intro t leads
    cases leads with
    -- Inside the same labels, by what is met there.
    | @within _ _ s met =>
      have endsBelow : SplicingEndsIn defs s := by
        induction met using TransGen.head_induction_on with
        | single last => exact ends.metIn last
        | head first _ ih => exact ih.metIn first
      exact ih s met endsBelow
    -- Otherwise fewer labels are left.
    | @enters _ loc label body found fresh =>
      exact (ends.definition Regex.label_mem_references found).acc_leads (label :: active)
termination_by unexpanded defs active
decreasing_by exact unexpanded_cons_lt found (by simpa using fresh)

theorem enough_for_all (each : ∀ t ∈ tasks, ∃ depth, Enough defs depth t) :
    ∃ depth, ∀ t ∈ tasks, Enough defs depth t := by
  induction tasks with
  | nil => exact ⟨0, by simp⟩
  | cons t rest ih =>
    obtain ⟨⟨first, enough⟩, later⟩ := List.forall_mem_cons.mp each
    obtain ⟨second, all⟩ := ih later
    refine ⟨max first second, List.forall_mem_cons.mpr ⟨enough.mono (Nat.le_max_left _ _), ?_⟩⟩
    exact fun t member => (all t member).mono (Nat.le_max_right _ _)

theorem enough_of_acc (ends : Acc (fun t task => Task.Leads defs task t) task) : ∃ depth, Enough defs depth task := by
  induction ends with
  | intro task _ ih =>
    cases next : nextTasks defs task with
    | error fault => exact ⟨1, enough_of_error next⟩
    | ok tasks =>
      obtain ⟨depth, all⟩ := enough_for_all fun t member => ih t (leads_of_next next member)
      refine ⟨depth + 1, ?_⟩
      rw [Enough, fault?_ok next]
      exact findSome?_not_cutOff all

/-! ### What is built has no loops -/

namespace Graph

variable {g : Graph} {settings : BuildSettings}

end Graph

end TokenTables.Automaton
