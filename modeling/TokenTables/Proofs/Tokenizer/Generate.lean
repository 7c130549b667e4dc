import Mathlib
import TokenTables.Proofs.Automaton.Buildable
import TokenTables.Proofs.Diagnostic.Log
import TokenTables.Tokenizer.Generate

/-!
What stands between a grammar and its tokenizer. Assembling finds no fault that the checks have not found before, so
a grammar with lexical states has a tokenizer just when it passes the checks.
-/

namespace TokenTables

open Automaton (BuildSettings Graph)

/-! ### Labelled expressions -/

namespace Grammar

variable {g : Grammar}

theorem mem_addNamed {named : List (String × TokenDef)} {t : TokenDef} {d : String × TokenDef}
    (member : d ∈ addNamed named t) : d ∈ named ∨ d.2 = t := by
  unfold addNamed at member
  split at member
  · exact .inl member
  · split at member
    · exact .inl member
    · rcases List.mem_append.mp member with old | new
      · exact .inl old
      · exact .inr (congrArg Prod.snd (List.mem_singleton.mp new))

theorem mem_labelled {d : String × TokenDef} (member : d ∈ g.labelled) : d.2 ∈ g.regexes := by
  have all : ∀ (ts : List TokenDef) named, d ∈ ts.foldl addNamed named → d ∈ named ∨ d.2 ∈ ts := by
    intro ts
    induction ts with
    | nil => exact fun named inside => .inl inside
    | cons t rest ih =>
      intro named inside
      rcases ih _ inside with before | later
      · rcases mem_addNamed before with old | rfl
        · exact .inl old
        · exact .inr List.mem_cons_self
      · exact .inr (List.mem_cons_of_mem t later)
  exact (all g.regexes [] member).resolve_left (by simp)

/-- What a label stands for is declared in the grammar. -/
theorem regex_of_definition {label : String} {r : Regex} (found : g.definitions.lookup label = some r) :
    ∃ t ∈ g.regexes, t.regex = r := by
  obtain ⟨⟨name, t⟩, member, same⟩ := List.mem_map.mp (mem_of_lookup found)
  obtain ⟨rfl, rfl⟩ := Prod.mk.inj same
  exact ⟨t, mem_labelled member, rfl⟩

/-- The rules of a lexical state are those that its productions have for a regex, with what these say. -/
theorem mem_rulesIn {state : Nat} {r : DeclaredRule} : r ∈ g.rulesIn state ↔ ∃ p ∈ g.productionsOf state,
    r.rule ∈ p.rules ∧ r.rule.regex? = some r.regex ∧ r.disposition = p.disposition ∧ r.ignoreCase = p.ignoreCase := by
  obtain ⟨disposition, ignoreCase, rule, t⟩ := r
  unfold rulesIn
  rw [List.mem_flatMap]
  refine exists_congr fun p => and_congr_right fun _ => ?_
  rw [List.mem_filterMap]
  constructor
  · rintro ⟨_, member, declared⟩
    obtain ⟨_, isRegex, same⟩ := Option.map_eq_some_iff.mp declared
    obtain ⟨rfl, rfl, rfl, rfl⟩ := DeclaredRule.mk.inj same
    exact ⟨member, isRegex, rfl, rfl⟩
  · rintro ⟨member, isRegex, rfl, rfl⟩
    exact ⟨rule, member, Option.map_eq_some_iff.mpr ⟨t, isRegex, rfl⟩⟩

theorem regex_of_rulesIn {state : Nat} {r : DeclaredRule} (member : r ∈ g.rulesIn state) : r.regex ∈ g.regexes := by
  obtain ⟨p, inState, inProduction, isRegex, _⟩ := mem_rulesIn.mp member
  have production : p ∈ g.productions := List.mem_of_mem_filter inState
  exact List.mem_filterMap.mpr ⟨r.rule, List.mem_flatMap.mpr ⟨p, production, inProduction⟩, isRegex⟩

/-! ### The checks -/

/-- What the checks leave in the log. -/
def checkLog (g : Grammar) (options : GenerationOptions) : DiagnosticLog :=
  DiagnosticLog.reportAll { policy := options.diagnostics } ((g.check options.ignoreCase).map Report.always)

/-- The checks find no error. -/
def Passes (g : Grammar) (options : GenerationOptions) : Prop := (g.checkLog options).forbidsResult = false

theorem passes_iff {options : GenerationOptions} :
    g.Passes options ↔ ∀ d ∈ g.check options.ignoreCase, d.isError = false := by
  have errors := DiagnosticLog.forbidsResult_reportAll (DiagnosticLog.counted_empty options.diagnostics)
    (g.check options.ignoreCase)
  unfold Passes checkLog
  rw [Bool.eq_false_iff, ne_eq, errors]
  simp [DiagnosticLog.forbidsResult, DiagnosticLog.refuses]

/-- Of the options the checks read none but the one about case. -/
theorem passes_congr {options other : GenerationOptions} (same : options.ignoreCase = other.ignoreCase) :
    g.Passes options ↔ g.Passes other := by
  rw [passes_iff, passes_iff, same]

theorem isError_loopReports {d : Diagnostic} (member : d ∈ g.loopReports) : d.isError = true := by
  obtain ⟨cycle, _, reported⟩ := List.mem_filterMap.mp member
  obtain ⟨label, _, reported⟩ := Option.bind_eq_some_iff.mp reported
  obtain ⟨start, _, reported⟩ := Option.bind_eq_some_iff.mp reported
  obtain rfl := Option.some.inj reported
  rfl

theorem isError_regexReports {d : Diagnostic} (member : d ∈ g.regexReports) : d.isError = true := by
  obtain ⟨fault, _, rfl⟩ := List.mem_map.mp member
  rfl

/-- A grammar that passes the checks has neither faults nor loops in its expressions. -/
theorem Passes.sound {options : GenerationOptions} (passes : g.Passes options) :
    (∀ t ∈ g.regexes, t.regex.faults g.definitions = []) ∧ ∀ label, Ends g.definitions label := by
  have harmless := passes_iff.mp passes
  unfold check at harmless
  simp only [List.forall_mem_append] at harmless
  obtain ⟨⟨⟨_, regexes⟩, loops⟩, _⟩ := harmless
  have noRegexReports : g.regexReports = [] := List.eq_nil_iff_forall_not_mem.mpr fun d member => by
    simpa [isError_regexReports member] using regexes d member
  have noLoopReports : g.loopReports = [] := List.eq_nil_iff_forall_not_mem.mpr fun d member => by
    simpa [isError_loopReports member] using loops d member
  exact ⟨List.flatMap_eq_nil_iff.mp (List.map_eq_nil_iff.mp noRegexReports), ends_of_loopReports noLoopReports⟩

/-- Every expression of a grammar that passes the checks is built, whatever graph it is added to. -/
theorem Passes.builds {options : GenerationOptions} (passes : g.Passes options) {t : TokenDef} (member : t ∈ g.regexes)
    (ignoreCase unicodeInput : Bool) (graph : Graph) :
    ∃ f, (graph.build ⟨g.definitions, ignoreCase, unicodeInput⟩ t.regex).outcome = .ok f := by
  obtain ⟨faultless, ends⟩ := passes.sound
  refine Graph.build_comes_through ⟨g.definitions, ignoreCase, unicodeInput⟩ ?_ ends
    (faultless t member) graph
  intro label r found
  obtain ⟨t, declared, rfl⟩ := regex_of_definition found
  exact faultless t declared

end Grammar

/-! ### Reports of the assembly -/

/-- None of them is an error. -/
def Harmless (reports : List Report) : Prop := ∀ r ∈ reports, r.isError = false

theorem harmless_append {reports more : List Report} : Harmless (reports ++ more) ↔ Harmless reports ∧ Harmless more :=
  List.forall_mem_append

namespace LiteralIndex

theorem harmless_insertReports (t : LiteralIndex) (l : Literal) : Harmless (t.insertReports l) := by
  unfold insertReports
  split
  · exact fun r member => nomatch member
  · intro r member
    obtain ⟨c, _, rfl⟩ := List.mem_map.mp member
    rfl

theorem harmless_register (t : LiteralIndex) (lexState offset : Nat) (graph : Graph) (tables : CandidateTables) :
    Harmless (t.register lexState offset graph tables).reports := by
  have start : Harmless ({ tables, graph } : TableUpdate).reports := fun r member => nomatch member
  refine List.foldlRecOn (motive := fun u : TableUpdate => Harmless u.reports) _ _ start fun u before l _ => ?_
  refine harmless_append.mpr ⟨before, fun r member => ?_⟩
  obtain ⟨k, _, rfl⟩ := List.mem_map.mp member
  rfl

end LiteralIndex

namespace Assembly

variable {g : Grammar} {options : GenerationOptions}

theorem harmless_addPublic {state initial : Nat} {a : Assembly} {d : StateDraft} {r : DeclaredRule}
    (passes : g.Passes options) (member : r ∈ g.rulesIn state) (before : Harmless a.reports) :
    Harmless (addPublic g options state initial a d r).1.reports := by
  unfold addPublic
  split
  · exact harmless_append.mpr ⟨before, LiteralIndex.harmless_insertReports _ _⟩
  · split
    · exact before
    · obtain ⟨f, built⟩ := passes.builds (Grammar.regex_of_rulesIn member) (r.ignoreCase || options.ignoreCase)
        options.unicodeInput d.graph
      have outcome : (d.graph.addRule ⟨g.definitions, r.ignoreCase || options.ignoreCase, options.unicodeInput⟩ initial
          r.regex.kind r.regex.regex).outcome = .ok f := by
        unfold Graph.addRule
        dsimp only
        rw [built]
      unfold addRegex
      dsimp only
      rw [outcome]
      refine harmless_append.mpr ⟨harmless_append.mpr ⟨before, fun report wide => ?_⟩, fun report none => nomatch none⟩
      obtain ⟨loc, _, rfl⟩ := List.mem_map.mp wide
      rfl

theorem harmless_addRule {state initial : Nat} {drafted : Assembly × StateDraft} {r : DeclaredRule}
    (passes : g.Passes options) (member : r ∈ g.rulesIn state) (before : Harmless drafted.1.reports) :
    Harmless (addRule g options state initial drafted r).1.reports := by
  unfold addRule
  dsimp only
  split
  · exact before
  · exact harmless_addPublic (a := { drafted.1 with kinds := _ }) passes member before

theorem harmless_addState {a : Assembly} (passes : g.Passes options) (before : Harmless a.reports) (name : String)
    (state : Nat) : Harmless (addState g options a name state).reports := by
  have drafted : Harmless ((g.rulesIn state).foldl (addRule g options state (Graph.withInitial {}).2)
      (a, { graph := (Graph.withInitial {}).1, index := { options := options.literalSettings } })).1.reports :=
    List.foldlRecOn (motive := fun made : Assembly × StateDraft => Harmless made.1.reports) _ _ before fun _ holds _ member =>
      harmless_addRule passes member holds
  exact harmless_append.mpr ⟨drafted, LiteralIndex.harmless_register _ _ _ _ _⟩

theorem harmless_ofGrammar (passes : g.Passes options) : Harmless (ofGrammar g options).reports :=
  List.foldlRecOn (motive := fun a : Assembly => Harmless a.reports) _ _ (fun _ member => nomatch member) fun _ before _ _ =>
    harmless_addState passes before _ _

theorem harmless_unmatchableReports (a : Assembly) : Harmless (unmatchableReports g a) := by
  intro r member
  obtain ⟨choice, _, reported⟩ := List.mem_flatMap.mp member
  obtain ⟨alternative, _, reported⟩ := List.mem_filterMap.mp reported
  obtain ⟨other, _, rfl⟩ := Option.map_eq_some_iff.mp reported
  rfl

end Assembly

theorem EmptyMatching.harmless_search (m : EmptyMatching) : Harmless m.search.reports := by
  refine List.foldlRecOn (motive := fun found : EmptyLoops => Harmless found.reports) _ _ (fun _ member => nomatch member) ?_
  intro found before start _
  unfold searchFrom
  split
  · exact before
  · split
    · exact before
    · dsimp only
      split
      · exact before
      · refine harmless_append.mpr ⟨before, fun r member => ?_⟩
        obtain rfl := List.mem_singleton.mp member
        rfl

/-- Assembling a grammar that passes the checks reports no error. -/
theorem Assembly.harmless_allReports {g : Grammar} {options : GenerationOptions} (passes : g.Passes options) :
    Harmless (allReports g (ofGrammar g options)) :=
  harmless_append.mpr
    ⟨harmless_append.mpr ⟨harmless_ofGrammar passes, harmless_unmatchableReports _⟩, EmptyMatching.harmless_search _⟩

/-! ### Generating -/

theorem generate_eq (g : Grammar) (options : GenerationOptions) :
    generate g options =
      if g.states.isEmpty then .error .noStates
      else if (g.checkLog options).forbidsResult then .error (.faultyGrammar (g.checkLog options).sorted)
      else
        let log := (g.checkLog options).reportAll (Assembly.allReports g (Assembly.ofGrammar g options))
        if log.forbidsResult then .error (.faultyGrammar log.sorted)
        else .ok ⟨Assembly.tokenizer g options (Assembly.ofGrammar g options), log.sorted⟩ := rfl

theorem generate_of_passes {g : Grammar} {options : GenerationOptions} (some : g.states ≠ []) (passes : g.Passes options) :
    ∃ made, generate g options = .ok made := by
  have empty : ¬ g.states.isEmpty = true := by simpa using some
  have forbids := DiagnosticLog.forbidsResult_reportAll_of_harmless (g.checkLog options)
    (Assembly.harmless_allReports passes)
  have checked : (g.checkLog options).forbidsResult = false := passes
  rw [checked] at forbids
  rw [generate_eq, if_neg empty, checked]
  dsimp only
  rw [forbids]
  exact ⟨_, rfl⟩

theorem generate_ok {g : Grammar} {options : GenerationOptions} {made : Generation}
    (generated : generate g options = .ok made) :
    g.Passes options ∧ made.tokenizer = Assembly.tokenizer g options (Assembly.ofGrammar g options) := by
  rw [generate_eq] at generated
  split at generated
  · cases generated
  · split at generated
    · cases generated
    · rename_i passes
      dsimp only at generated
      split at generated
      · cases generated
      · obtain rfl := Except.ok.inj generated
        exact ⟨Bool.eq_false_iff.mpr passes, rfl⟩

/-- What the assembly reports as no error comes along with the tokenizer. -/
theorem mem_diagnostics {g : Grammar} {options : GenerationOptions} {made : Generation}
    (generated : generate g options = .ok made) {d : Diagnostic}
    (reported : .always d ∈ Assembly.allReports g (Assembly.ofGrammar g options)) (noError : d.isError = false) :
    d ∈ made.diagnostics := by
  rw [generate_eq] at generated
  split at generated
  · cases generated
  · split at generated
    · cases generated
    · dsimp only at generated
      split at generated
      · cases generated
      · obtain rfl := Except.ok.inj generated
        exact List.mem_mergeSort.mpr (DiagnosticLog.pending_reportAll _ reported noError)

/-- A grammar that passes the checks is assembled without a fault, and nothing but the checks and the want of a lexical
state keeps a grammar from its tokenizer. -/
theorem generate_fails_iff (g : Grammar) (options : GenerationOptions) :
    (g.Passes options →
      (∀ state, ∀ r ∈ g.rulesIn state, ∀ graph : Graph, ∃ f,
        (graph.build ⟨g.definitions, r.ignoreCase || options.ignoreCase, options.unicodeInput⟩ r.regex.regex).outcome =
          .ok f) ∧
      (∀ r ∈ Assembly.allReports g (Assembly.ofGrammar g options), r.isError = false) ∧
      (g.states ≠ [] → ∃ made, generate g options = .ok made)) ∧
    ((∃ e, generate g options = .error e) ↔ g.states = [] ∨ ¬ g.Passes options) := by
  refine ⟨fun passes => ⟨fun state r member graph => ?_, Assembly.harmless_allReports passes,
    fun some => generate_of_passes some passes⟩, ?_, ?_⟩
  · exact passes.builds (Grammar.regex_of_rulesIn member) _ _ graph
  · rintro ⟨e, failed⟩
    by_contra neither
    obtain ⟨some, passes⟩ := not_or.mp neither
    obtain ⟨made, generated⟩ := generate_of_passes some (not_not.mp passes)
    rw [failed] at generated
    cases generated
  · rintro (none | fails)
    · exact ⟨.noStates, by rw [generate_eq, none]; rfl⟩
    · by_cases none : g.states = []
      · exact ⟨.noStates, by rw [generate_eq, none]; rfl⟩
      · have empty : ¬ g.states.isEmpty = true := by simpa using none
        rw [generate_eq, if_neg empty, if_pos (by simpa [Grammar.Passes] using fails)]
        exact ⟨_, rfl⟩

/-- Numbers, and sums that refer to them. -/
def sums : Grammar where
  states := ["DEFAULT"]
  productions := [⟨.token, some ["DEFAULT"], false,
    [⟨.regex ⟨1, some "NUMBER", false, .repetition .unknown (.charClass .unknown ⟨false, [.range '0' '9']⟩) 1 none⟩,
      none, none, .unknown⟩,
    ⟨.regex ⟨2, some "SUM", false, .sequence .unknown
      [.reference .unknown "NUMBER", .literal .unknown "+", .reference .unknown "NUMBER"]⟩, none, none, .unknown⟩],
    .unknown⟩]

theorem sums_generates : sums.Passes {} ∧ ∃ made, generate sums {} = .ok made := by
  have passes : sums.Passes {} := by
    unfold Grammar.Passes
    cbv
  exact ⟨passes, ((generate_fails_iff sums {}).1 passes).2.2 (by decide)⟩

end TokenTables
