import TokenTables.Proofs.Tokenizer.Generate

/-!
Rules of a grammar in its lexical states. A rule is one and the same in every state that declares it; what the checks let
pass leads to states that are there, and says at most once what happens at the end of the input.
-/

namespace TokenTables

namespace Grammar

variable {g : Grammar} {count i j : Nat} {r s : DeclaredRule}

/-- The regex rules of all productions, with what these say. -/
def everyRule (g : Grammar) : List DeclaredRule :=
  g.productions.flatMap fun p => p.rules.filterMap fun r => r.regex?.map fun t => ⟨p.disposition, p.ignoreCase, r, t⟩

theorem map_regex_everyRule (g : Grammar) : g.everyRule.map (·.regex) = g.regexes := by
  unfold everyRule regexes rules
  rw [List.map_flatMap, List.filterMap_flatMap]
  refine List.flatMap_congr fun p _ => ?_
  rw [List.map_filterMap]
  refine List.filterMap_congr fun r _ => ?_
  cases r.regex? <;> rfl

theorem mem_everyRule (member : r ∈ g.rulesIn i) : r ∈ g.everyRule := by
  obtain ⟨p, inState, declared⟩ := List.mem_flatMap.mp member
  exact List.mem_flatMap.mpr ⟨p, List.mem_of_mem_filter inState, declared⟩

/-- Rules of one kind are one rule, also in different lexical states. -/
theorem rule_of_kind (distinct : (g.regexes.map (·.kind)).Nodup) (first : r ∈ g.rulesIn i) (second : s ∈ g.rulesIn j)
    (same : r.regex.kind = s.regex.kind) : r = s := by
  rw [← map_regex_everyRule, List.map_map] at distinct
  exact List.inj_on_of_nodup_map distinct (mem_everyRule first) (mem_everyRule second) same

theorem stateIndex?_lt {name : String} (place : g.stateIndex? name = some i) : i < g.states.length :=
  (List.findIdx?_eq_some_iff_getElem.mp place).1

theorem lt_length_of_rulesIn (member : r ∈ g.rulesIn i) : i < g.states.length := by
  obtain ⟨p, inState, _⟩ := mem_rulesIn.mp member
  have applies : i ∈ g.stateIndices p := by simpa [productionsOf] using (List.mem_filter.mp inState).2
  unfold stateIndices at applies
  split at applies
  · exact List.mem_range.mp applies
  · obtain ⟨name, _, place⟩ := List.mem_filterMap.mp applies
    exact stateIndex?_lt place

theorem rule_of_rulesIn (member : r ∈ g.rulesIn i) : r.rule ∈ g.rules := by
  obtain ⟨p, inState, inProduction, _⟩ := mem_rulesIn.mp member
  exact List.mem_flatMap.mpr ⟨p, List.mem_of_mem_filter inState, inProduction⟩

theorem kind_le_lastKind {t : TokenDef} (member : t ∈ g.regexes) : t.kind ≤ g.lastKind := by
  unfold lastKind
  rw [List.foldl_max]
  exact (List.le_max?_getD_of_mem (List.mem_map_of_mem member)).trans (Nat.le_max_right _ _)

/-- The rules of the first lexical states, each with its state. -/
def rulesBefore (g : Grammar) (count : Nat) : List (Nat × DeclaredRule) :=
  (List.range count).flatMap fun i => (g.rulesIn i).map (i, ·)

theorem mem_rulesBefore : (i, r) ∈ g.rulesBefore g.states.length ↔ r ∈ g.rulesIn i := by
  constructor
  · intro member
    obtain ⟨j, _, declared⟩ := List.mem_flatMap.mp member
    obtain ⟨s, there, same⟩ := List.mem_map.mp declared
    obtain ⟨rfl, rfl⟩ := Prod.mk.inj same
    exact there
  · intro member
    exact List.mem_flatMap.mpr ⟨i, List.mem_range.mpr (lt_length_of_rulesIn member), List.mem_map_of_mem member⟩

/-- The lexical state that a rule leads to from one that declares it: the one it names, or else the same. -/
inductive LeadsTo (g : Grammar) (r : TokenRule) (state : Nat) : Nat → Prop
  | staying (unnamed : r.nextState = none) : LeadsTo g r state state
  | going {name : String} {next : Nat} (named : r.nextState = some name) (place : g.stateIndex? name = some next) :
      LeadsTo g r state next

theorem LeadsTo.place {r : TokenRule} {state next : Nat} {name : String} (leads : g.LeadsTo r state next)
    (named : r.nextState = some name) : g.stateIndex? name = some next := by
  cases leads with
  | staying unnamed =>
    rw [unnamed] at named
    cases named
  | going own place =>
    rw [own] at named
    exact Option.some.inj named ▸ place

/-- Every lexical state that rules go to is there. -/
def KnowsTargets (g : Grammar) : Prop :=
  ∀ r ∈ g.rules, ∀ name, r.nextState = some name → ∃ next, g.stateIndex? name = some next

theorem KnowsTargets.leadsTo_iff (knows : g.KnowsTargets) {r : TokenRule} (member : r ∈ g.rules) {state next : Nat} :
    g.LeadsTo r state next ↔ (KindTables.destination g r).getD state = next := by
  unfold KindTables.destination
  constructor
  · rintro (unnamed | ⟨named, place⟩)
    · rw [unnamed]
      rfl
    · rw [named, Option.bind_some, place]
      rfl
  · rintro rfl
    cases named : r.nextState with
    | none => exact .staying named
    | some name =>
      obtain ⟨next, place⟩ := knows r member name named
      rw [Option.bind_some, place]
      exact .going named place

end Grammar

/-! ### The end of the input -/

namespace Grammar

variable {g : Grammar} {options : GenerationOptions}

end Grammar

end TokenTables
