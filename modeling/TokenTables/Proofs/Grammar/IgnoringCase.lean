import TokenTables.Proofs.Tokenizer.Generate

/-!
Grammars whose productions all ignore case. The checks find in one what they find in the grammar it is made of when case
is ignored throughout a run, and so the two are turned into tokenizers alike.
-/

namespace TokenTables

/-- The production, with case ignored. -/
def Production.ignoringCase (p : Production) : Production := { p with ignoreCase := true }

/-- The grammar, with case ignored in all productions. -/
def Grammar.ignoringCase (g : Grammar) : Grammar := { g with productions := g.productions.map Production.ignoringCase }

/-- The rule, with case ignored. -/
def DeclaredRule.ignoringCase (r : DeclaredRule) : DeclaredRule := { r with ignoreCase := true }

namespace GenerationOptions

/-- Case is ignored throughout the run. -/
def ignoringCase (o : GenerationOptions) : GenerationOptions := { o with ignoreCase := true }

/-- Case is ignored where productions say so. -/
def byProduction (o : GenerationOptions) : GenerationOptions := { o with ignoreCase := false }

end GenerationOptions

namespace Grammar

variable (g : Grammar)

/-! ### What is declared -/

theorem ignoringCase_rules : g.ignoringCase.rules = g.rules := List.flatMap_map _ _ _

theorem ignoringCase_regexes : g.ignoringCase.regexes = g.regexes := by
  unfold regexes
  rw [ignoringCase_rules]

theorem ignoringCase_labelled : g.ignoringCase.labelled = g.labelled := by
  unfold labelled
  rw [ignoringCase_regexes]

theorem ignoringCase_definitions : g.ignoringCase.definitions = g.definitions := by
  unfold definitions
  rw [ignoringCase_labelled]

theorem ignoringCase_productionsOf (i : Nat) :
    g.ignoringCase.productionsOf i = (g.productionsOf i).map Production.ignoringCase := List.filter_map

theorem ignoringCase_rulesIn (i : Nat) : g.ignoringCase.rulesIn i = (g.rulesIn i).map DeclaredRule.ignoringCase := by
  unfold rulesIn
  rw [ignoringCase_productionsOf, List.flatMap_map, List.map_flatMap]
  refine List.flatMap_congr fun p _ => ?_
  rw [List.map_filterMap]
  refine List.filterMap_congr fun r _ => ?_
  rw [Option.map_map]
  rfl

/-! ### The checks -/

theorem ignoringCase_stateReports : g.ignoringCase.stateReports = g.stateReports := List.flatMap_map _ _ _

theorem ignoringCase_endOfInputReports : g.ignoringCase.endOfInputReports = g.endOfInputReports := by
  have rules : (g.ignoringCase.productions.flatMap fun p => (p.rules.filter (·.isEndOfInput)).map (p, ·)) =
      (g.productions.flatMap fun p => (p.rules.filter (·.isEndOfInput)).map (p, ·)).map
        (Prod.map Production.ignoringCase id) := by
    unfold ignoringCase
    rw [List.flatMap_map, List.map_flatMap]
    refine List.flatMap_congr fun p _ => ?_
    rw [List.map_map]
    rfl
  unfold endOfInputReports
  rw [rules]
  dsimp only
  rw [List.foldl_map]
  rfl

theorem ignoringCase_labelReports : g.ignoringCase.labelReports = g.labelReports := by
  unfold labelReports
  rw [ignoringCase_regexes]
  rfl

theorem ignoringCase_regexReports : g.ignoringCase.regexReports = g.regexReports := by
  unfold regexReports
  rw [ignoringCase_regexes, ignoringCase_definitions]

theorem ignoringCase_loopReports : g.ignoringCase.loopReports = g.loopReports := by
  unfold loopReports referenceCycles labelsByKind
  have report : g.ignoringCase.loopReport = g.loopReport := by
    funext cycle
    unfold loopReport
    rw [ignoringCase_definitions]
  rw [ignoringCase_definitions, ignoringCase_labelled, report]

/-- Case is ignored of the same strings. -/
theorem ignoringCase_stringReports : g.ignoringCase.stringReports false = g.stringReports true := by
  have strings : g.ignoringCase.strings false = g.strings true := by
    unfold Grammar.strings ignoringCase
    rw [List.flatMap_map]
    refine List.flatMap_congr fun p _ => ?_
    rw [Bool.or_true]
    rfl
  unfold stringReports
  rw [strings]
  rfl

/-- Ignoring case in every production is to the checks what ignoring it throughout the run is. -/
theorem check_ignoringCase : g.ignoringCase.check false = g.check true := by
  unfold check
  rw [ignoringCase_stateReports, ignoringCase_endOfInputReports, ignoringCase_labelReports, ignoringCase_regexReports,
    ignoringCase_loopReports, ignoringCase_stringReports]

variable {g} {options : GenerationOptions}

theorem passes_ignoringCase : g.ignoringCase.Passes options.byProduction ↔ g.Passes options.ignoringCase := by
  rw [passes_iff, passes_iff]
  unfold GenerationOptions.byProduction GenerationOptions.ignoringCase
  rw [check_ignoringCase]

end Grammar

end TokenTables
