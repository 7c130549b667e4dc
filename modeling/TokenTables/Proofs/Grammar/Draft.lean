import Mathlib.Logic.Relation
import TokenTables.Grammar.Draft

/-!
The kinds of drafted grammars. Every regex written takes the next kind, whatever is done to its production besides, so
the kinds of a finished grammar are the numbers from 1 on.
-/

namespace TokenTables

namespace ProductionDraft

/-- One call on a production being written. -/
inductive Writes : ProductionDraft → ProductionDraft → Prop
  | limitedTo (p) (names : List String) : Writes p (p.limitedTo names)
  | inAllStates (p) : Writes p p.inAllStates
  | withCaseIgnored (p) : Writes p p.withCaseIgnored
  | atLocation (p) (loc : Location) : Writes p (p.atLocation loc)
  | addRegex (p) (regex : Regex) : Writes p (p.addRegex regex)
  | addLabeled (p) (label : String) (regex : Regex) : Writes p (p.addLabeled label regex)
  | addPrivate (p) (label : String) (regex : Regex) : Writes p (p.addPrivate label regex)
  | addEndOfInput (p) : Writes p p.addEndOfInput
  | goingTo (p) (name : String) : Writes p (p.goingTo name)
  | running (p) (action : Action) : Writes p (p.running action)

/-- The kinds of a production are the numbers from `first` on. -/
structure Numbered (first : Nat) (p : ProductionDraft) : Prop where
  nextKind : p.nextKind = first + p.production.regexes.length
  kinds : p.production.regexes.map (·.kind) = List.range' first p.production.regexes.length

variable {first : Nat} {p q : ProductionDraft}

theorem Numbered.declare (numbered : Numbered first p) (label : Option String) (isPrivate : Bool) (regex : Regex) :
    Numbered first (p.declare label isPrivate regex) := by
  have written : (p.declare label isPrivate regex).production.regexes =
      p.production.regexes ++ [⟨p.nextKind, label, isPrivate, regex⟩] := List.filterMap_append
  constructor
  · rw [written, List.length_append, ← Nat.add_assoc, ← numbered.nextKind]
    rfl
  · rw [written, List.length_append, List.map_append, numbered.kinds, List.length_singleton, List.range'_concat,
      numbered.nextKind, Nat.one_mul]
    rfl

/-- Calls that leave the regexes alone. -/
theorem Numbered.aside (numbered : Numbered first p) (regexes : q.production.regexes = p.production.regexes)
    (nextKind : q.nextKind = p.nextKind) : Numbered first q := by
  refine ⟨?_, ?_⟩
  · rw [nextKind, regexes, numbered.nextKind]
  · rw [regexes, numbered.kinds]

theorem Numbered.amendLast (numbered : Numbered first p) {change : TokenRule → TokenRule}
    (keeps : ∀ r, (change r).regex? = r.regex?) : Numbered first (p.amendLast change) := by
  have same : ∀ (rules : List TokenRule) (i : Nat),
      (rules.modify i change).filterMap (·.regex?) = rules.filterMap (·.regex?) := by
    intro rules
    induction rules with
    | nil => exact fun i => by cases i <;> rfl
    | cons r rest ih =>
      intro i
      cases i with
      | zero => rw [List.modify_zero_cons, List.filterMap_cons, List.filterMap_cons, keeps]
      | succ i => rw [List.modify_succ_cons, List.filterMap_cons, List.filterMap_cons, ih]
  exact numbered.aside (same _ _) rfl

theorem Numbered.writes (numbered : Numbered first p) (writes : Writes p q) : Numbered first q := by
  cases writes with
  | limitedTo | inAllStates | withCaseIgnored | atLocation => exact numbered.aside rfl rfl
  | addRegex regex => exact numbered.declare none false regex
  | addLabeled label regex => exact numbered.declare (some label) false regex
  | addPrivate label regex => exact numbered.declare (some label) true regex
  | addEndOfInput =>
    exact numbered.aside (by simp [addEndOfInput, addRule, Production.regexes, TokenRule.regex?]) rfl
  | goingTo | running => exact numbered.amendLast fun _ => rfl

end ProductionDraft

namespace GrammarDraft

open ProductionDraft (Numbered Writes)

/-- The drafts that calls make of an empty one. -/
inductive Made : GrammarDraft → Prop
  | start : Made {}
  | declareState {g : GrammarDraft} (made : Made g) (name : String) : Made (g.declareState name)
  | close {g : GrammarDraft} (made : Made g) (disposition : Disposition) {p : ProductionDraft}
      (written : Relation.ReflTransGen Writes (g.openProduction disposition) p) : Made (g.close p)

variable {g : GrammarDraft}

theorem numbered_of_written {disposition : Disposition} {p : ProductionDraft}
    (written : Relation.ReflTransGen Writes (g.openProduction disposition) p) : Numbered g.nextKind p := by
  induction written with
  | refl => exact ⟨rfl, rfl⟩
  | tail _ writes ih => exact ih.writes writes

/-- Kinds are handed out one after the other, from 1 on. -/
theorem Made.kinds (made : Made g) : g.nextKind = 1 + g.grammar.regexes.length ∧
    g.grammar.regexes.map (·.kind) = List.range' 1 g.grammar.regexes.length := by
  induction made with
  | start => exact ⟨rfl, rfl⟩
  | @declareState g _ name ih =>
    have same : (g.declareState name).grammar.regexes = g.grammar.regexes ∧ (g.declareState name).nextKind = g.nextKind := by
      unfold GrammarDraft.declareState
      split <;> exact ⟨rfl, rfl⟩
    rw [same.1, same.2]
    exact ih
  | @close g _ disposition p written ih =>
    have numbered := numbered_of_written written
    have regexes : (g.close p).grammar.regexes = g.grammar.regexes ++ p.production.regexes := by
      simp [GrammarDraft.close, grammar, Grammar.regexes, Grammar.rules, Production.regexes]
    constructor
    · rw [regexes, List.length_append, ← Nat.add_assoc, ← ih.1]
      exact numbered.nextKind
    · rw [regexes, List.length_append, List.map_append, ih.2, numbered.kinds, ih.1, List.range'_append_1]

end GrammarDraft

end TokenTables
