import TokenTables.Proofs.Tokenizer.OwnMatch

/-!
Lexical states do not disturb each other. What a state matches is told by the productions that apply to it and by what
the labels stand for, so two grammars that agree on these match the same in it.
-/

namespace TokenTables

open Automaton (BuildSettings Graph StateId)

/-! ### Definitions as a map -/

/-- Both give every label the same meaning. -/
def SameMap (defs others : Definitions) : Prop := ∀ label, others.lookup label = defs.lookup label

namespace Grammar

variable {g : Grammar}

theorem nodup_addNamed {named : List (String × TokenDef)} (distinct : (named.map (·.1)).Nodup) (t : TokenDef) :
    ((addNamed named t).map (·.1)).Nodup := by
  unfold addNamed
  cases t.label with
  | none => exact distinct
  | some label =>
    dsimp only
    split
    · exact distinct
    · rename_i free
      rw [List.map_append, List.map_singleton]
      refine List.nodup_append.mpr ⟨distinct, List.nodup_singleton label, fun taken member other isLabel => ?_⟩
      obtain rfl := List.mem_singleton.mp isLabel
      rintro rfl
      obtain ⟨d, inside, same⟩ := List.mem_map.mp member
      exact free (List.lookup_isSome_iff.mpr ⟨d, inside, by simpa using same.symm⟩)

theorem nodup_definitions (g : Grammar) : (g.definitions.map (·.1)).Nodup := by
  have labels : g.definitions.map (·.1) = g.labelled.map (·.1) := by
    unfold definitions
    rw [List.map_map]
    rfl
  rw [labels]
  unfold labelled
  refine List.foldlRecOn (motive := fun named : List (String × TokenDef) => (named.map (·.1)).Nodup) _ _ ?_ ?_
  · exact List.nodup_nil
  · exact fun _ distinct t _ => nodup_addNamed distinct t

end Grammar

theorem lookup_iff_mem {defs : Definitions} (distinct : (defs.map (·.1)).Nodup) {label : String} {r : Regex} :
    defs.lookup label = some r ↔ (label, r) ∈ defs := by
  refine ⟨mem_of_lookup, fun member => ?_⟩
  induction defs with
  | nil => cases member
  | cons d rest ih =>
    obtain ⟨name, body⟩ := d
    rw [List.map_cons, List.nodup_cons] at distinct
    rw [List.lookup_cons]
    rcases List.mem_cons.mp member with here | later
    · obtain ⟨rfl, rfl⟩ := Prod.mk.inj here
      rw [beq_self_eq_true]
    · have differ : (label == name) = false := by
        rw [beq_eq_false_iff_ne]
        rintro rfl
        exact distinct.1 (List.mem_map.mpr ⟨_, later, rfl⟩)
      rw [differ]
      exact ih distinct.2 later

/-- Lists that say the same about every label have the same definitions. -/
theorem SameMap.perm {defs others : Definitions} (same : SameMap defs others) (distinct : (defs.map (·.1)).Nodup)
    (distinctOthers : (others.map (·.1)).Nodup) : others.Perm defs := by
  rw [List.perm_ext_iff_of_nodup distinctOthers.of_map distinct.of_map]
  intro d
  rw [← lookup_iff_mem distinct, ← lookup_iff_mem distinctOthers, same]

namespace Automaton

variable {defs others : Definitions}

theorem spliceChoices_congr (same : SameMap defs others) (active splicing : List String) (alternatives : List Regex) :
    spliceChoices others active splicing alternatives = spliceChoices defs active splicing alternatives := by
  induction splicing, alternatives using spliceChoices.induct defs active with
  | case1 splicing => rw [spliceChoices, spliceChoices]
  | case2 splicing loc inner rest ihInner ihRest => rw [spliceChoices, spliceChoices, ihInner, ihRest]
  | case3 splicing loc label rest written inner found fresh ihInner ihRest =>
    rw [spliceChoices_reference, spliceChoices_reference, same label, found]
    dsimp only
    rw [ihInner, ihRest]
  | case4 splicing loc label rest written inner found stale =>
    rw [spliceChoices_reference, spliceChoices_reference, same label, found]
    dsimp only
    rw [if_neg stale, if_neg stale]
  | case5 splicing loc label rest other ihRest =>
    rw [spliceChoices_reference, spliceChoices_reference, same label, ihRest]
    split
    · rename_i found
      exact absurd found (other _ _)
    · rfl
  | case6 splicing r rest notChoice notReference ihRest =>
    rw [spliceChoices, spliceChoices, ihRest]
    · exact notChoice
    · exact notReference
    · exact notChoice
    · exact notReference

theorem Build.expression_congr (same : SameMap defs others) (ignoreCase unicodeInput : Bool) (depth : Nat)
    (active : List String) (r : Regex) :
    expression ⟨others, ignoreCase, unicodeInput⟩ depth active r =
      expression ⟨defs, ignoreCase, unicodeInput⟩ depth active r := by
  induction depth generalizing active r with
  | zero => rfl
  | succ depth ih =>
    have parts : expression ⟨others, ignoreCase, unicodeInput⟩ depth = expression ⟨defs, ignoreCase, unicodeInput⟩ depth :=
      funext fun active => funext fun r => ih active r
    cases r with
    | literal loc written => rfl
    | charClass loc cls => rfl
    | sequence loc all =>
      unfold expression
      rw [parts]
    | choice loc alternatives =>
      unfold expression
      rw [parts, spliceChoices_congr same]
      rfl
    | repetition loc body least most =>
      unfold expression
      rw [parts]
    | reference loc label =>
      unfold expression
      dsimp only
      rw [same label, parts]

/-- Neither what is built nor how deep it may nest depends on the order of the definitions. -/
theorem Graph.build_congr (same : SameMap defs others) (perm : others.Perm defs) (ignoreCase unicodeInput : Bool)
    (g : Graph) (r : Regex) :
    g.build ⟨others, ignoreCase, unicodeInput⟩ r = g.build ⟨defs, ignoreCase, unicodeInput⟩ r := by
  have depth : depthBound others r = depthBound defs r := by
    unfold depthBound
    rw [perm.length_eq, perm.foldl_eq' fun _ _ _ _ _ => by omega]
  unfold build
  rw [depth, Build.expression_congr same]

theorem Graph.addRule_congr (same : SameMap defs others) (perm : others.Perm defs) (ignoreCase unicodeInput : Bool)
    (g : Graph) (initial : StateId) (kind : Kind) (r : Regex) :
    g.addRule ⟨others, ignoreCase, unicodeInput⟩ initial kind r =
      g.addRule ⟨defs, ignoreCase, unicodeInput⟩ initial kind r := by
  unfold addRule
  rw [build_congr same perm]

end Automaton

namespace Assembly

variable {g other : Grammar} {options : GenerationOptions} {i : Nat}

/-- Productions and labels tell the draft of a lexical state. -/
theorem draft_congr (labels : SameMap g.definitions other.definitions)
    (productions : other.productionsOf i = g.productionsOf i) : draft other options i = draft g options i := by
  have perm := labels.perm g.nodup_definitions other.nodup_definitions
  have rules : other.rulesIn i = g.rulesIn i := by
    unfold Grammar.rulesIn
    rw [productions]
  have each : draftRule other options i = draftRule g options i := by
    funext d r
    unfold draftRule Grammar.firstIgnoresCase
    rw [productions, Automaton.Graph.addRule_congr labels perm]
  unfold draft
  rw [rules, each]

theorem ownMatch_congr (same : draft other options i = draft g options i) (text : List Char) :
    ownMatch other options i text = ownMatch g options i text := by
  have closed : closedGraph other options i = closedGraph g options i := by
    unfold closedGraph
    rw [same]
  have named : namedGraph other options i = namedGraph g options i := by
    unfold namedGraph
    rw [closed]
  have index : literalIndex other options i = literalIndex g options i := by
    unfold literalIndex
    rw [same, named]
  have tables : ownTables other options i = ownTables g options i := by
    unfold ownTables
    rw [index, named]
  have literals : ownLiteralMatches other options i = ownLiteralMatches g options i := by
    unfold ownLiteralMatches
    rw [tables]
  unfold ownMatch emptyKind
  rw [same, closed, named, tables, literals]

end Assembly

/-- Two grammars whose labels stand for the same, and whose productions for a lexical state are the same, match the same
in this state, whatever they have in others. -/
theorem longestMatch_isolated {g other : Grammar} {options : GenerationOptions} {made remade : Generation}
    (generated : generate g options = .ok made) (regenerated : generate other options = .ok remade)
    (states : other.states = g.states) (labels : SameMap g.definitions other.definitions) {state : Nat}
    (inside : state < g.states.length) (productions : other.productionsOf state = g.productionsOf state)
    {text : List Char} (basic : ∀ c ∈ text, c.toNat ≤ Text.lastCode) :
    ∃ answer, made.tokenizer.longestMatch state text = .ok answer ∧
      remade.tokenizer.longestMatch state text = .ok answer := by
  refine ⟨_, Assembly.longestMatch_eq_ownMatch generated inside basic, ?_⟩
  rw [Assembly.longestMatch_eq_ownMatch regenerated (by rwa [states]) basic,
    Assembly.ownMatch_congr (Assembly.draft_congr labels productions)]

/-- Words, and nothing in the second state. -/
def words : Grammar where
  states := ["WORDS", "NOTES"]
  productions := [⟨.token, some ["WORDS"], false,
    [⟨.regex ⟨1, none, false, .repetition .unknown (.charClass .unknown ⟨false, [.range 'a' 'z']⟩) 1 none⟩,
      none, none, .unknown⟩], .unknown⟩]

/-- Words, and a note in the second state. -/
def wordsAndNotes : Grammar where
  states := words.states
  productions := words.productions ++ [⟨.skip, some ["NOTES"], true,
    [⟨.regex ⟨2, none, false, .literal .unknown "note"⟩, none, none, .unknown⟩], .unknown⟩]

theorem words_isolated : ∃ made remade answer, generate words {} = .ok made ∧ generate wordsAndNotes {} = .ok remade ∧
    made.tokenizer.longestMatch 0 ['a', 'b'] = .ok answer ∧ remade.tokenizer.longestMatch 0 ['a', 'b'] = .ok answer := by
  obtain ⟨made, generated⟩ : ∃ made, generate words {} = .ok made :=
    generate_of_passes (by decide) (by unfold Grammar.Passes; cbv)
  obtain ⟨remade, regenerated⟩ : ∃ made, generate wordsAndNotes {} = .ok made :=
    generate_of_passes (by decide) (by unfold Grammar.Passes; cbv)
  have basic : ∀ c ∈ ['a', 'b'], c.toNat ≤ Text.lastCode := by simp [Text.lastCode]
  obtain ⟨answer, found, foundAgain⟩ := longestMatch_isolated generated regenerated rfl (fun _ => rfl)
    (by decide : 0 < words.states.length) (by cbv) basic
  exact ⟨made, remade, answer, generated, regenerated, found, foundAgain⟩

end TokenTables
