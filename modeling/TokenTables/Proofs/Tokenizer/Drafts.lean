import TokenTables.Proofs.Automaton.Rules
import TokenTables.Proofs.Literal.Tables
import TokenTables.Proofs.Tokenizer.Generate

/-!
Drafts of lexical states. What the rules of a state make of its draft depends on these rules alone, and for a grammar
that passes the checks the graph drafted is the graph of the rules that go to the automaton.
-/

namespace TokenTables.Assembly

open Automaton (Graph)
open Automaton.Graph (Fresh addRules)

variable {g : Grammar} {options : GenerationOptions} {state : Nat} {a : Assembly} {d : StateDraft} {r : DeclaredRule}

/-- A draft without rules. -/
def blankDraft (options : GenerationOptions) : StateDraft :=
  { graph := (Graph.withInitial {}).1, index := { options := options.literalSettings } }

/-- Takes a rule into a draft. -/
def draftRule (g : Grammar) (options : GenerationOptions) (state : Nat) (d : StateDraft) (r : DeclaredRule) :
    StateDraft :=
  if r.regex.isPrivate then d
  else match literalOf? options r with
  | some l => { d with
      index := d.index.insert l
      mixesCase := d.mixesCase || g.firstIgnoresCase state != r.ignoreCase }
  | none =>
    if r.regex.regex.isAnyChar then { d with wildcard := Kind.better d.wildcard (some r.regex.kind) }
    else { d with graph := (d.graph.addRule
      ⟨g.definitions, r.ignoreCase || options.ignoreCase, options.unicodeInput⟩ 0 r.regex.kind r.regex.regex).graph }

/-- The draft of a lexical state. -/
def draft (g : Grammar) (options : GenerationOptions) (state : Nat) : StateDraft :=
  (g.rulesIn state).foldl (draftRule g options state) (blankDraft options)

/-- The tables that lexical states share have not been touched. -/
structure SameTables (a b : Assembly) : Prop where
  entries : b.entries = a.entries
  dispatch : b.dispatch = a.dispatch
  literals : b.literals = a.literals
  states : b.states = a.states

theorem SameTables.refl (a : Assembly) : SameTables a a := ⟨rfl, rfl, rfl, rfl⟩

theorem SameTables.trans {b c : Assembly} (one : SameTables a b) (two : SameTables b c) : SameTables a c :=
  ⟨two.entries.trans one.entries, two.dispatch.trans one.dispatch, two.literals.trans one.literals,
    two.states.trans one.states⟩

theorem addRule_drafts (g : Grammar) (options : GenerationOptions) (state : Nat) (a : Assembly) (d : StateDraft)
    (r : DeclaredRule) :
    SameTables a (addRule g options state 0 (a, d) r).1 ∧
      (addRule g options state 0 (a, d) r).2 = draftRule g options state d r := by
  unfold addRule draftRule
  dsimp only
  split
  · exact ⟨⟨rfl, rfl, rfl, rfl⟩, rfl⟩
  · unfold addPublic
    cases literalOf? options r with
    | some l => exact ⟨⟨rfl, rfl, rfl, rfl⟩, rfl⟩
    | none =>
      dsimp only
      split
      · exact ⟨⟨rfl, rfl, rfl, rfl⟩, rfl⟩
      · exact ⟨⟨rfl, rfl, rfl, rfl⟩, rfl⟩

/-- Taking in a rule adds to what is reported, and to the choices at most the rule itself. -/
theorem addRule_grows (g : Grammar) (options : GenerationOptions) (state : Nat) (a : Assembly) (d : StateDraft)
    (r : DeclaredRule) :
    a.reports ⊆ (addRule g options state 0 (a, d) r).1.reports ∧
      (addRule g options state 0 (a, d) r).1.choices ⊆ a.choices ++ [(state, r.regex)] := by
  unfold addRule addPublic addLiteral addRegex
  dsimp only
  split
  · exact ⟨List.Subset.refl _, List.subset_append_left _ _⟩
  · split
    · exact ⟨List.subset_append_left _ _, List.subset_append_left _ _⟩
    · split
      · exact ⟨List.Subset.refl _, List.subset_append_left _ _⟩
      · dsimp only
        refine ⟨?_, ?_⟩
        · rw [List.append_assoc]
          exact List.subset_append_left _ _
        · split
          · exact List.Subset.refl _
          · exact List.subset_append_left _ _

theorem addRules_drafts (rules : List DeclaredRule) (a : Assembly) (d : StateDraft) :
    SameTables a (rules.foldl (addRule g options state 0) (a, d)).1 ∧
      (rules.foldl (addRule g options state 0) (a, d)).2 = rules.foldl (draftRule g options state) d := by
  induction rules generalizing a d with
  | nil => exact ⟨.refl a, rfl⟩
  | cons r rest ih =>
    obtain ⟨same, drafted⟩ := addRule_drafts g options state a d r
    obtain ⟨sameRest, draftedRest⟩ := ih (addRule g options state 0 (a, d) r).1 (draftRule g options state d r)
    rw [List.foldl_cons, List.foldl_cons, ← draftedRest, ← drafted]
    rw [← drafted] at sameRest
    exact ⟨same.trans sameRest, rfl⟩

/-- The assembly once a lexical state's rules have been taken in. -/
def takenRules (g : Grammar) (options : GenerationOptions) (state : Nat) (a : Assembly) : Assembly :=
  ((g.rulesIn state).foldl (addRule g options state 0) (a, blankDraft options)).1

theorem takenRules_sameTables (g : Grammar) (options : GenerationOptions) (state : Nat) (a : Assembly) : SameTables a (takenRules g options state a) :=
  (addRules_drafts _ a _).1

/-- A lexical state is assembled from its draft. -/
theorem addState_eq (a : Assembly) (name : String) (state : Nat) :
    addState g options a name state =
      finishState options state name (takenRules g options state a) (draft g options state) := by
  unfold draft
  rw [← (addRules_drafts (g.rulesIn state) a (blankDraft options)).2]
  rfl

/-- What holds before the first lexical state, and goes over from each state to the next, holds of all of them. -/
theorem ofGrammar_induction {holds : Nat → Assembly → Prop}
    (begun : holds 0 { kinds := (KindTables.forGrammar g).endOfInput g })
    (next : ∀ i a (name : String), holds i a → holds (i + 1) (addState g options a name i)) :
    holds g.states.length (ofGrammar g options) := by
  have all : ∀ (names : List String) (count : Nat) (a : Assembly), holds count a →
      holds (count + names.length)
        ((names.zipIdx count).foldl (fun a state => addState g options a state.1 state.2) a) := by
    intro names
    induction names with
    | nil => exact fun count a before => before
    | cons name rest ih =>
      intro count a before
      have after := ih (count + 1) _ (next count a name before)
      rw [Nat.add_assoc, Nat.add_comm 1] at after
      exact after
  have done := all g.states 0 _ begun
  rwa [Nat.zero_add] at done

/-! ### Literals and wildcards of a draft -/

/-- A rule as a literal, if it goes to the index. -/
def literalRule? (options : GenerationOptions) (r : DeclaredRule) : Option Literal :=
  if r.regex.isPrivate then none else literalOf? options r

/-- The rule matches any character and is kept apart for that. -/
def IsWildcard (r : DeclaredRule) : Prop := r.regex.isPrivate = false ∧ r.regex.regex.isAnyChar = true

theorem literalOf?_some {l : Literal} (isLiteral : literalOf? options r = some l) :
    ∃ loc text, r.regex.regex = .literal loc text ∧ options.literalsInAutomaton = false ∧
      l = ⟨text.toList, r.regex.kind, r.ignoreCase, r.regex.location⟩ ∧ l.chars ≠ [] := by
  obtain ⟨text, isText, chosen⟩ := Option.bind_eq_some_iff.mp isLiteral
  split at chosen
  · cases chosen
  · rename_i kept
    obtain ⟨some, inTables⟩ : ¬ text = "" ∧ options.literalsInAutomaton = false := by simpa using kept
    obtain rfl := Option.some.inj chosen
    unfold Regex.literalText? at isText
    split at isText
    · rename_i loc written same
      obtain rfl := Option.some.inj isText
      exact ⟨loc, written, same, inTables, rfl, by simpa using some⟩
    · cases isText

/-- What some rules of a lexical state have drafted beside the graph. -/
structure Drafted (g : Grammar) (options : GenerationOptions) (state : Nat) (rules : List DeclaredRule)
    (d : StateDraft) : Prop where
  settings : d.index.options = options.literalSettings
  progress : d.index.progress = {}
  resumptions : d.index.resumptions = #[]
  literals : d.index.literals = rules.filterMap (literalRule? options)
  wildcard : Kind.IsBest d.wildcard fun k => ∃ r ∈ rules, IsWildcard r ∧ k = some r.regex.kind
  mixesCase : d.mixesCase = rules.any fun r =>
    (literalRule? options r).isSome && g.firstIgnoresCase state != r.ignoreCase

theorem drafted_blank : Drafted g options state [] (blankDraft options) :=
  ⟨rfl, rfl, rfl, rfl, ⟨fun k same => (nomatch same), fun a none => by simp at none⟩, rfl⟩

/-- A rule that is no literal leaves the index alone. -/
theorem Drafted.aside {rules : List DeclaredRule} (drafted : Drafted g options state rules d) {r : DeclaredRule}
    {after : StateDraft} (noLiteral : literalRule? options r = none) (index : after.index = d.index)
    (mixesCase : after.mixesCase = d.mixesCase)
    (wildcard : IsWildcard r ∧ after.wildcard = Kind.better d.wildcard (some r.regex.kind) ∨
      ¬ IsWildcard r ∧ after.wildcard = d.wildcard) : Drafted g options state (rules ++ [r]) after := by
  refine ⟨?_, ?_, ?_, ?_, ?_, ?_⟩
  · rw [index, drafted.settings]
  · rw [index, drafted.progress]
  · rw [index, drafted.resumptions]
  · rw [index, drafted.literals, List.filterMap_append, List.filterMap_cons_none noLiteral, List.filterMap_nil,
      List.append_nil]
  · rcases wildcard with ⟨isWildcard, better⟩ | ⟨other, same⟩
    · rw [better]
      refine drafted.wildcard.better.congr fun k => ?_
      simp [List.mem_append, or_and_right, exists_or, isWildcard]
    · rw [same]
      refine drafted.wildcard.congr fun k => ?_
      simp [List.mem_append, or_and_right, exists_or, other]
  · rw [mixesCase, drafted.mixesCase, List.any_append]
    simp [noLiteral]

theorem Drafted.literal {rules : List DeclaredRule} (drafted : Drafted g options state rules d) {r : DeclaredRule}
    {l : Literal} (isLiteral : literalRule? options r = some l) : Drafted g options state (rules ++ [r]) { d with
      index := d.index.insert l
      mixesCase := d.mixesCase || g.firstIgnoresCase state != r.ignoreCase } := by
  have isPublic : r.regex.isPrivate = false ∧ literalOf? options r = some l := by
    unfold literalRule? at isLiteral
    split at isLiteral
    · cases isLiteral
    · rename_i isPublic
      exact ⟨by simpa using isPublic, isLiteral⟩
  obtain ⟨loc, text, same, _, _, some⟩ := literalOf?_some isPublic.2
  have inserted := LiteralIndex.insert_inserted d.index l
  refine ⟨?_, ?_, ?_, ?_, ?_, ?_⟩
  · rw [inserted.options, drafted.settings]
  · rw [inserted.progress, drafted.progress]
  · rw [inserted.resumptions, drafted.resumptions]
  · rw [inserted.literals some, drafted.literals, List.filterMap_append, List.filterMap_cons_some isLiteral,
      List.filterMap_nil]
  · have other : ¬ IsWildcard r := by
      rintro ⟨_, anyChar⟩
      rw [same] at anyChar
      cases anyChar
    refine drafted.wildcard.congr fun k => ?_
    simp [List.mem_append, or_and_right, exists_or, other]
  · rw [drafted.mixesCase, List.any_append]
    simp [isLiteral]

theorem Drafted.rule {rules : List DeclaredRule} (drafted : Drafted g options state rules d) (r : DeclaredRule) :
    Drafted g options state (rules ++ [r]) (draftRule g options state d r) := by
  unfold draftRule
  split
  · rename_i isPrivate
    have noLiteral : literalRule? options r = none := by rw [literalRule?, if_pos isPrivate]
    exact drafted.aside noLiteral rfl rfl (.inr ⟨fun wildcard => by simp [wildcard.1] at isPrivate, rfl⟩)
  · rename_i isPublic
    have same : literalRule? options r = literalOf? options r := by rw [literalRule?, if_neg isPublic]
    split
    · rename_i l isLiteral
      exact drafted.literal (same.trans isLiteral)
    · rename_i noLiteral
      split
      · rename_i anyChar
        exact drafted.aside (same.trans noLiteral) rfl rfl (.inl ⟨⟨by simpa using isPublic, anyChar⟩, rfl⟩)
      · rename_i other
        exact drafted.aside (same.trans noLiteral) rfl rfl (.inr ⟨fun wildcard => other wildcard.2, rfl⟩)

theorem draft_drafted (g : Grammar) (options : GenerationOptions) (state : Nat) :
    Drafted g options state (g.rulesIn state) (draft g options state) := by
  have all : ∀ (rest before : List DeclaredRule) d, Drafted g options state before d →
      Drafted g options state (before ++ rest) (rest.foldl (draftRule g options state) d) := by
    intro rest
    induction rest with
    | nil => exact fun before d drafted => by rwa [List.append_nil]
    | cons r rest ih =>
      intro before d drafted
      rw [List.append_cons]
      exact ih _ _ (drafted.rule r)
  exact all _ [] _ drafted_blank

/-! ### The automaton of a draft -/

/-- A rule as the automaton has it, if it goes there. -/
def automatonRule? (options : GenerationOptions) (r : DeclaredRule) : Option Automaton.Rule :=
  if r.regex.isPrivate || (literalOf? options r).isSome || r.regex.regex.isAnyChar then none
  else some ⟨r.regex.kind, r.regex.regex, r.ignoreCase || options.ignoreCase⟩

theorem automatonRule?_eq_some {rule : Automaton.Rule} : automatonRule? options r = some rule ↔
    r.regex.isPrivate = false ∧ literalOf? options r = none ∧ r.regex.regex.isAnyChar = false ∧
      rule = ⟨r.regex.kind, r.regex.regex, r.ignoreCase || options.ignoreCase⟩ := by
  unfold automatonRule?
  rw [Option.ite_none_left_eq_some, Option.some_inj, @eq_comm _ rule]
  simp only [Bool.or_eq_true, not_or, Bool.not_eq_true, Option.isSome_eq_false_iff, Option.isNone_iff_eq_none, and_assoc]

/-- The rules of a lexical state that go to its automaton. -/
def automatonRules (g : Grammar) (options : GenerationOptions) (state : Nat) : List Automaton.Rule :=
  (g.rulesIn state).filterMap (automatonRule? options)

theorem draftRule_graph_of_none (aside : automatonRule? options r = none) :
    (draftRule g options state d r).graph = d.graph := by
  unfold automatonRule? at aside
  unfold draftRule
  split
  · rfl
  · rename_i isPublic
    cases literal : literalOf? options r with
    | some l => rfl
    | none =>
      simp only [literal, Bool.not_eq_true] at aside isPublic ⊢
      rw [if_pos (by simpa [isPublic] using aside)]

theorem draftRule_graph_of_some (g : Grammar) (state : Nat) (d : StateDraft) {rule : Automaton.Rule}
    (goes : automatonRule? options r = some rule) :
    rule = ⟨r.regex.kind, r.regex.regex, r.ignoreCase || options.ignoreCase⟩ ∧
      (draftRule g options state d r).graph =
        (d.graph.addRule ⟨g.definitions, rule.ignoreCase, options.unicodeInput⟩ 0 rule.kind rule.regex).graph := by
  obtain ⟨isPublic, noLiteral, notAny, rfl⟩ := automatonRule?_eq_some.mp goes
  refine ⟨rfl, ?_⟩
  unfold draftRule
  rw [isPublic, noLiteral, notAny]
  rfl

theorem drafts_addRules (passes : g.Passes options) (rules : List DeclaredRule)
    (declared : ∀ r ∈ rules, r.regex ∈ g.regexes) (d : StateDraft) :
    addRules g.definitions options.unicodeInput 0 d.graph (rules.filterMap (automatonRule? options)) =
      .ok (rules.foldl (draftRule g options state) d).graph := by
  induction rules generalizing d with
  | nil => rfl
  | cons r rest ih =>
    obtain ⟨here, later⟩ := List.forall_mem_cons.mp declared
    rw [List.foldl_cons, ← ih later]
    cases goes : automatonRule? options r with
    | none => rw [List.filterMap_cons_none goes, draftRule_graph_of_none goes]
    | some rule =>
      obtain ⟨isRule, graph⟩ := draftRule_graph_of_some g state d goes
      obtain ⟨f, built⟩ := passes.builds here (r.ignoreCase || options.ignoreCase) options.unicodeInput d.graph
      have outcome : (d.graph.addRule ⟨g.definitions, rule.ignoreCase, options.unicodeInput⟩ 0 rule.kind
          rule.regex).outcome = .ok f := by
        rw [Automaton.Graph.addRule_outcome, isRule]
        exact built
      rw [List.filterMap_cons_some goes, addRules]
      rw [outcome, graph]

/-- For a grammar that passes the checks the graph drafted is that of the rules for the automaton. -/
theorem draft_graph (passes : g.Passes options) (state : Nat) :
    Graph.ofRules g.definitions options.unicodeInput (automatonRules g options state) =
      .ok (draft g options state).graph :=
  drafts_addRules passes (g.rulesIn state) (fun _ member => Grammar.regex_of_rulesIn member) (blankDraft options)

theorem draft_fresh (passes : g.Passes options) (state : Nat) : Fresh (draft g options state).graph := by
  obtain ⟨pieces, ruled, _⟩ := Automaton.Graph.ofRules_ruled (draft_graph passes state)
  exact ruled.fresh

end TokenTables.Assembly
