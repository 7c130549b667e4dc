import Mathlib
import TokenTables.Proofs.Tokenizer.GraphRuns

/-!
Longest matches. The entries of a list of rules find the longest prefix that a rule matches, and the first of the
rules that match it, just when closing finds the kinds that the rules come to.
-/

namespace TokenTables.Tokenizer

open Automaton (DispatchTable Entry EntryName Graph StateId)
open Automaton.Graph (Active KindFound KindsArrive Labelled)
open Kind (IsBest NoLater)

variable {text : List Char} {t : Tokenizer} {offset : Nat} {base closed named g : Graph} {sem : Automaton.Graph.Standing}
  {starts : Set Nat} {active : List StateId} {names : List EntryName}

/-- A run reports the kinds found at the states that the text enters. -/
theorem run_findsLast (exports : Exports t offset closed named g) (completed : Automaton.Graph.Completed base sem closed)
    (consumed : Nat) (last : Option Match) (activeStates : Active base sem closed named starts active)
    (same : SameActive offset g active names) (basic : ∀ c ∈ text, c.toNat ≤ Text.lastCode) :
    ∃ result, t.run consumed names last text = .ok result ∧
      FindsLast (KindFound base closed starts) consumed last text result :=
  ⟨_, exports.run consumed last same basic,
    Automaton.Graph.lastMatch_findsLast exports.labelled completed activeStates consumed last text⟩

theorem runFrom_eq (name : Option EntryName) : t.runFrom name 0 text = t.run 0 (t.opening name) none text := by
  rw [runFrom_eq_run, List.drop_zero]

/-! ### Rules -/

/-- The kinds of the rules that match a text. -/
def Matched (defs : Definitions) (rules : List Automaton.Rule) : Findings :=
  fun text kind => ∃ r ∈ rules, Regex.Matches defs r.ignoreCase r.regex text ∧ kind = some r.kind

/-- The graph of rules matches what they match. -/
theorem path_iff_matched {defs : Definitions} {unicodeInput : Bool} {rules : List Automaton.Rule} {built : Graph}
    (ok : Graph.ofRules defs unicodeInput rules = .ok built) {k : Kind} :
    (∃ f, built.Path 0 text f ∧ (built.state f).kind = some k) ↔ Matched defs rules text (some k) := by
  obtain ⟨pieces, ruled, same⟩ := Automaton.Graph.ofRules_ruled ok
  have each : ∀ kind texts, (∃ p ∈ pieces, (p.kind, p.texts) = (kind, texts)) ↔
      ∃ r ∈ rules, (r.kind, r.texts defs) = (kind, texts) := by
    intro kind texts
    rw [← List.mem_map, ← List.mem_map, same]
  rw [ruled.path_iff]
  constructor
  · rintro ⟨p, member, rfl, matched⟩
    obtain ⟨r, listed, equal⟩ := (each p.kind p.texts).mp ⟨p, member, rfl⟩
    obtain ⟨kind, texts⟩ := Prod.mk.inj equal
    rw [← texts] at matched
    exact ⟨r, listed, matched, congrArg some kind.symm⟩
  · rintro ⟨r, listed, matched, kind⟩
    obtain ⟨p, member, equal⟩ := (each r.kind (r.texts defs)).mpr ⟨r, listed, rfl⟩
    obtain ⟨sameKind, texts⟩ := Prod.mk.inj equal
    obtain rfl := Option.some.inj kind
    refine ⟨p, member, sameKind, ?_⟩
    rw [texts]
    exact matched

/-- What a lexical state of these rules should do with every text up to the last code point, the empty text too. -/
structure MatchesRules (t : Tokenizer) (name : Option EntryName) (emptyMatch : Option Kind) (defs : Definitions)
    (rules : List Automaton.Rule) : Prop where
  longest : ∀ text : List Char, (∀ c ∈ text, c.toNat ≤ Text.lastCode) →
    ∃ result, t.runFrom name 0 text = .ok result ∧ Finds (Matched defs rules) text result
  empty : IsBest emptyMatch (Matched defs rules [])

/-- The exported entries of a list of rules find the longest matches just when the kinds arrive. -/
theorem matchesRules_iff_kindsArrive {defs : Definitions} {unicodeInput : Bool} {rules : List Automaton.Rule}
    {built : Graph} (ok : Graph.ofRules defs unicodeInput rules = .ok built) (mode : Automaton.Closing)
    (table : DispatchTable) (t : Tokenizer) (before behind : List Entry) :
    let named := (built.completeAll mode).nameAll
    let exported := t.withEntries before (named.1.dispatchAll table) behind
    MatchesRules exported (named.2.map (· + before.length)) named.1.openingKind defs rules ↔
      KindsArrive built (built.completeAll mode) := by
  obtain ⟨pieces, ruled, _⟩ := Automaton.Graph.ofRules_ruled ok
  have fresh := ruled.fresh
  obtain ⟨sem, completed⟩ := Automaton.Graph.completeAll_completed fresh mode
  obtain ⟨labelled, _, stands⟩ := Automaton.Graph.nameAll_labelled (completed.nameable fresh)
  intro named exported
  have exports : Exports exported before.length (built.completeAll mode) named.1 (named.1.dispatchAll table).1 :=
    exports_of_closed fresh completed (hasEntries_of_append rfl) (.refl _)
  have runs : ∀ text : List Char, (∀ c ∈ text, c.toNat ≤ Text.lastCode) →
      ∃ result, exported.runFrom (named.2.map (· + before.length)) 0 text = .ok result ∧
        Finds (KindFound built (built.completeAll mode) {0}) text result := by
    intro text basic
    obtain ⟨result, ran, finds⟩ := run_findsLast exports completed 0 none (labelled.active_opening completed fresh)
      (exports.opening stands) basic
    exact ⟨result, by rw [runFrom_eq, ran], finds.finds⟩
  have opening : named.1.openingKind = ((built.completeAll mode).state 0).kind := by
    unfold Graph.openingKind
    rw [labelled.same.initial, completed.initial, fresh.initial]
    exact labelled.same.kind 0
  have sound : ∀ text k, KindFound built (built.completeAll mode) {0} text (some k) → Matched defs rules text (some k) :=
    fun text k found => (path_iff_matched ok).mp (found.matched completed.toRepresents fresh)
  constructor
  · rintro ⟨longest, empty⟩ text basic f k path kind
    have matched := (path_iff_matched ok).mp ⟨f, path, kind⟩
    by_cases unread : text = []
    · subst unread
      exact ⟨_, ⟨0, rfl, rfl⟩, by rw [← opening]; exact empty.first _ matched⟩
    · obtain ⟨result, ran, finds⟩ := longest text basic
      obtain ⟨other, again, found⟩ := runs text basic
      obtain rfl := Except.ok.inj (ran.symm.trans again)
      obtain ⟨best, rfl, isBest⟩ := finds.whole unread matched
      have here := found.best
      rw [List.take_length] at here
      exact ⟨some best, here.found best rfl, isBest.first _ matched⟩
  · intro arrive
    have bests : ∀ text : List Char, (∀ c ∈ text, c.toNat ≤ Text.lastCode) → ∀ best,
        IsBest best (KindFound built (built.completeAll mode) {0} text) → IsBest best (Matched defs rules text) := by
      refine fun text basic best isBest => ⟨fun k same => sound text k (isBest.found k same), ?_⟩
      rintro a ⟨r, listed, matches_, rfl⟩
      obtain ⟨f, path, kind⟩ := (path_iff_matched ok).mpr ⟨r, listed, matches_, rfl⟩
      obtain ⟨found, finding, noLater⟩ := arrive text basic f r.kind path kind
      exact (isBest.first found finding).trans noLater
    refine ⟨fun text basic => ?_, bests [] (fun c member => nomatch member) _ ?_⟩
    · obtain ⟨result, ran, finds⟩ := runs text basic
      exact ⟨result, ran, finds.congr fun i best _ _ =>
        bests _ (fun c member => basic c (List.mem_of_mem_take member)) best⟩
    · rw [opening]
      refine (IsBest.single _).congr fun k => ?_
      constructor
      · exact fun same => ⟨0, rfl, same⟩
      · rintro ⟨s, start, same⟩
        obtain rfl : s = 0 := start
        exact same

/-- Two loops over nothing. -/
def emptyLoops : Regex :=
  .repetition .unknown (.repetition .unknown (.repetition .unknown (.literal .unknown "") 0 (some 1)) 1 none) 2 (some 2)

theorem emptyLoops_matches : Regex.Matches [] false emptyLoops [] := by
  have once : Regex.Matches [] false
      (.repetition .unknown (.repetition .unknown (.literal .unknown "") 0 (some 1)) 1 none) [] :=
    @Regex.Matches.oneMore _ _ _ _ _ _ [] [] (by decide) .noMore .noMore
  refine @Regex.Matches.oneMore _ _ _ _ _ _ [] [] (by decide) once ?_
  exact @Regex.Matches.oneMore _ _ _ _ _ _ [] [] (by decide) once .noMore

/-- The kind of the empty text does not arrive past two empty loops. -/
theorem emptyLoops_not_matchesRules :
    ∃ built, Graph.ofRules [] false [⟨1, emptyLoops, false⟩] = .ok built ∧
      let named := (built.completeAll .merging).nameAll
      let exported := (Tokenizer.mk [] #[] {} {} {} {} {} {} [] [] {} 0).withEntries [] (named.1.dispatchAll {}) []
      ¬ MatchesRules exported (named.2.map (· + 0)) named.1.openingKind [] [⟨1, emptyLoops, false⟩] := by
  obtain ⟨built, ok⟩ : ∃ built, Graph.ofRules [] false [⟨1, emptyLoops, false⟩] = .ok built := ⟨_, rfl⟩
  have lost : ((built.completeAll .merging).state 0).kind = none := by
    have all : (Graph.ofRules [] false [⟨1, emptyLoops, false⟩]).map
        (fun g => ((g.completeAll .merging).state 0).kind) = .ok none := by
      cbv
    rw [ok] at all
    exact Except.ok.inj all
  refine ⟨built, ok, fun right => ?_⟩
  have arrive := (matchesRules_iff_kindsArrive ok .merging {} _ [] []).mp right
  obtain ⟨f, path, kind⟩ := (path_iff_matched ok).mpr ⟨_, List.mem_singleton.mpr rfl, emptyLoops_matches, rfl⟩
  obtain ⟨found, ⟨t, start, same⟩, noLater⟩ := arrive [] (List.forall_mem_nil _) f 1 path kind
  obtain rfl : t = 0 := start
  rw [lost] at same
  obtain ⟨_, _, impossible⟩ := noLater 1 rfl
  rw [same] at impossible
  cases impossible

end TokenTables.Tokenizer
