import TokenTables.Proofs.Tokenizer.Generate

/-!
Log policies and the outcome of a generation. What a policy drops is not heard of, but whether a grammar has a
tokenizer, and which, does not depend on it.
-/

namespace TokenTables

/-- How two generations end alike: with one tokenizer, or with failures of the same sort. -/
inductive SameOutcome : Except GenerationError Generation → Except GenerationError Generation → Prop
  | made {first second : Generation} (same : first.tokenizer = second.tokenizer) :
      SameOutcome (.ok first) (.ok second)
  | noStates : SameOutcome (.error .noStates) (.error .noStates)
  | faulty (first second : List Diagnostic) :
      SameOutcome (.error (.faultyGrammar first)) (.error (.faultyGrammar second))

/-- The diagnostics of a generation are in order, and have an error just when they are why it failed. -/
inductive Accounted : Except GenerationError Generation → Prop
  | made {made : Generation} (sorted : DiagnosticLog.ByLocation made.diagnostics)
      (harmless : ∀ d ∈ made.diagnostics, d.isError = false) : Accounted (.ok made)
  | noStates : Accounted (.error .noStates)
  | faulty {ds : List Diagnostic} (sorted : DiagnosticLog.ByLocation ds) (error : ∃ d ∈ ds, d.isError = true) :
      Accounted (.error (.faultyGrammar ds))

section

variable (g : Grammar) (options : GenerationOptions)

theorem Grammar.checkLog_counted : (g.checkLog options).Counted :=
  DiagnosticLog.reportAll_counted (DiagnosticLog.counted_empty _) _

theorem generate_accounted : Accounted (generate g options) := by
  rw [generate_eq]
  split
  · exact .noStates
  · split
    · rename_i forbids
      exact .faulty (DiagnosticLog.sorted_byLocation _)
        ((DiagnosticLog.forbidsResult_iff_sorted (g.checkLog_counted options)).mp forbids)
    · dsimp only
      have counted := DiagnosticLog.reportAll_counted (g.checkLog_counted options)
        (Assembly.allReports g (Assembly.ofGrammar g options))
      split
      · rename_i forbids
        exact .faulty (DiagnosticLog.sorted_byLocation _) ((DiagnosticLog.forbidsResult_iff_sorted counted).mp forbids)
      · rename_i allows
        rw [DiagnosticLog.forbidsResult_iff_sorted counted] at allows
        exact .made (DiagnosticLog.sorted_byLocation _) fun d member =>
          Bool.eq_false_iff.mpr fun isError => allows ⟨d, member, isError⟩

/-- A finished state depends on how automata are closed, and on no other option. -/
theorem Assembly.finishState_congr {options other : GenerationOptions} (same : options.closing = other.closing) :
    finishState options = finishState other := by
  funext state name a d
  unfold finishState
  rw [same]

/-- Nothing but the log reads the policy. -/
theorem Assembly.ofGrammar_policy (policy : LogPolicy) :
    ofGrammar g { options with diagnostics := policy } = ofGrammar g options := by
  have rules : addRule g { options with diagnostics := policy } = addRule g options := by
    funext state initial drafted r
    simp only [addRule, addPublic, addRegex, literalOf?]
  have finish : finishState { options with diagnostics := policy } = finishState options := finishState_congr rfl
  have states : addState g { options with diagnostics := policy } = addState g options := by
    funext a name state
    simp only [addState, rules, finish, GenerationOptions.literalSettings]
  simp only [ofGrammar, states]

theorem Assembly.tokenizer_policy (policy : LogPolicy) (a : Assembly) :
    tokenizer g { options with diagnostics := policy } a = tokenizer g options a := rfl

theorem Grammar.passes_policy (policy : LogPolicy) :
    g.Passes { options with diagnostics := policy } ↔ g.Passes options := passes_congr rfl

/-- Options that differ in their log policy alone give the same tokenizer, or none of them gives any. Whatever the
policy, the diagnostics come by location, and hold an error just when there is no tokenizer. -/
theorem generate_policy (policy : LogPolicy) :
    SameOutcome (generate g options) (generate g { options with diagnostics := policy }) ∧
    Accounted (generate g options) ∧ Accounted (generate g { options with diagnostics := policy }) := by
  refine ⟨?_, generate_accounted g _, generate_accounted g _⟩
  by_cases none : g.states = []
  · have first : generate g options = .error .noStates := by rw [generate_eq, none]; rfl
    have second : generate g { options with diagnostics := policy } = .error .noStates := by
      rw [generate_eq, none]; rfl
    rw [first, second]
    exact .noStates
  · by_cases passes : g.Passes options
    · obtain ⟨first, made⟩ := generate_of_passes none passes
      obtain ⟨second, madeToo⟩ := generate_of_passes none ((g.passes_policy options policy).mpr passes)
      rw [made, madeToo]
      refine .made ?_
      rw [(generate_ok made).2, (generate_ok madeToo).2, Assembly.tokenizer_policy g options policy,
        Assembly.ofGrammar_policy g options policy]
    · have fails := mt (g.passes_policy options policy).mp passes
      have empty : ¬ g.states.isEmpty = true := by simpa using none
      rw [generate_eq, generate_eq, if_neg empty, if_neg empty, if_pos (by simpa [Grammar.Passes] using passes),
        if_pos (by simpa [Grammar.Passes] using fails)]
      exact .faulty _ _

end

end TokenTables
