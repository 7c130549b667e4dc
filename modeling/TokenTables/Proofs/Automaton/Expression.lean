import TokenTables.Proofs.Automaton.Combinators

/-!
Building an expression: if it comes through, the fragment has the language of the expression.
-/

namespace TokenTables.Automaton

theorem except_bind_ok {ε α β : Type} {x : Except ε α} {f : α → Except ε β} {b : β}
    (run : (x >>= f) = .ok b) : ∃ a, x = .ok a ∧ f a = .ok b := by
  cases x with
  | error fault => cases run
  | ok a => exact ⟨a, rfl, run⟩

/-- A function comes through on a list just when it does on each member. -/
theorem mapM_eq_ok_iff {ε α β : Type} {f : α → Except ε β} {xs : List α} {ys : List β} :
    xs.mapM f = .ok ys ↔ xs.map f = ys.map .ok := by
  induction xs generalizing ys with
  | nil =>
    constructor
    · intro ran
      obtain rfl := Except.ok.inj ran
      rfl
    · intro same
      rw [List.map_eq_nil_iff.mp same.symm]
      rfl
  | cons x rest ih =>
    rw [List.mapM_cons, List.map_cons]
    constructor
    · intro ran
      obtain ⟨y, here, ran⟩ := except_bind_ok ran
      obtain ⟨others, later, ran⟩ := except_bind_ok ran
      obtain rfl := Except.ok.inj ran
      rw [here, ih.mp later, List.map_cons]
    · intro same
      obtain ⟨y, others, rfl, here, later⟩ := List.map_eq_cons_iff.mp same.symm
      rw [← here, ih.mpr later.symm]
      rfl

/-- The alternatives of a reference, with those of a choice it stands for in its place. -/
theorem spliceChoices_reference (defs : Definitions) (active splicing : List String) (loc : Location) (label : String)
    (rest : List Regex) : spliceChoices defs active splicing (.reference loc label :: rest) =
      match defs.lookup label with
      | some (.choice _ inner) =>
        if splicing.contains label = false ∧ active.contains label = false then do
          let here ← spliceChoices defs active (label :: splicing) inner
          let others ← spliceChoices defs active splicing rest
          return here ++ others
        else .error (.circularReference label loc)
      | _ => do
        let others ← spliceChoices defs active splicing rest
        return .reference loc label :: others := by
  rw [spliceChoices]
  split
  · rename_i found
    rw [found]
    rfl
  · rename_i other
    split
    · rename_i found
      exact absurd found (other _ _)
    · rfl

/-- How alternatives are spliced if no label comes up again. -/
inductive SplicesTo (defs : Definitions) : (alternatives all : List Regex) → Prop where
  | nil : SplicesTo defs [] []
  | nested {loc : Location} {inner rest here others : List Regex} (first : SplicesTo defs inner here)
    (second : SplicesTo defs rest others) : SplicesTo defs (.choice loc inner :: rest) (here ++ others)
  | referenced {loc written : Location} {label : String} {inner rest here others : List Regex}
    (found : defs.lookup label = some (.choice written inner)) (first : SplicesTo defs inner here)
    (second : SplicesTo defs rest others) : SplicesTo defs (.reference loc label :: rest) (here ++ others)
  | kept {r : Regex} {rest others : List Regex} (second : SplicesTo defs rest others) :
    SplicesTo defs (r :: rest) (r :: others)

theorem splicesTo_of_ok {defs : Definitions} {active splicing : List String} {alternatives all : List Regex}
    (spliced : spliceChoices defs active splicing alternatives = .ok all) : SplicesTo defs alternatives all := by
  induction splicing, alternatives using spliceChoices.induct defs active generalizing all with
  | case1 splicing =>
    rw [spliceChoices] at spliced
    obtain rfl := Except.ok.inj spliced
    exact .nil
  | case2 splicing loc inner rest ihInner ihRest =>
    rw [spliceChoices] at spliced
    obtain ⟨here, first, spliced⟩ := except_bind_ok spliced
    obtain ⟨others, second, spliced⟩ := except_bind_ok spliced
    obtain rfl := Except.ok.inj spliced
    exact .nested (ihInner first) (ihRest second)
  | case3 splicing loc label rest written inner found fresh ihInner ihRest =>
    rw [spliceChoices_reference, found] at spliced
    dsimp only at spliced
    rw [if_pos fresh] at spliced
    obtain ⟨here, first, spliced⟩ := except_bind_ok spliced
    obtain ⟨others, second, spliced⟩ := except_bind_ok spliced
    obtain rfl := Except.ok.inj spliced
    exact .referenced found (ihInner first) (ihRest second)
  | case4 splicing loc label rest written inner found stale =>
    rw [spliceChoices_reference, found] at spliced
    dsimp only at spliced
    rw [if_neg stale] at spliced
    cases spliced
  | case5 splicing loc label rest other ihRest =>
    rw [spliceChoices_reference] at spliced
    split at spliced
    · rename_i found
      exact absurd found (other _ _)
    · obtain ⟨others, second, spliced⟩ := except_bind_ok spliced
      obtain rfl := Except.ok.inj spliced
      exact .kept (ihRest second)
  | case6 splicing r rest notChoice notReference ihRest =>
    rw [spliceChoices] at spliced
    · obtain ⟨others, second, spliced⟩ := except_bind_ok spliced
      obtain rfl := Except.ok.inj spliced
      exact .kept (ihRest second)
    · exact notChoice
    · exact notReference

/-- Splicing choices in place keeps what the alternatives match together. -/
theorem SplicesTo.language {defs : Definitions} {ignoreCase : Bool} {alternatives all : List Regex}
    (spliced : SplicesTo defs alternatives all) {text : List Char} :
    (∃ r ∈ all, text ∈ r.language defs ignoreCase) ↔
      ∃ r ∈ alternatives, text ∈ r.language defs ignoreCase := by
  induction spliced with
  | nil => exact Iff.rfl
  | nested first second ihFirst ihSecond =>
    simp only [List.mem_append, or_and_right, exists_or, ihFirst, ihSecond, List.mem_cons, exists_eq_left,
      Regex.mem_language_choice]
  | referenced found first second ihFirst ihSecond =>
    simp only [List.mem_append, or_and_right, exists_or, ihFirst, ihSecond, List.mem_cons, exists_eq_left,
      Regex.language_reference found, Regex.mem_language_choice]
  | kept second ih => simp only [List.mem_cons, or_and_right, exists_or, exists_eq_left, ih]

namespace Build

open TokenTables.Automaton.Graph
open Text (CodeRange)
open Text.CodeRange (Covers)

variable {c c' : Construction} {settings : BuildSettings}

/-- The texts of an expression under the settings. -/
abbrev languageOf (settings : BuildSettings) (r : Regex) : Language Char :=
  r.language settings.definitions settings.ignoreCase

/-- An expression that reads exactly one character reads those of its class. -/
theorem languageOf_singleChars {r : Regex} {cls : CharClass} (single : singleChars? r = some cls)
    (admitted : Admitted cls) : languageOf settings r = singles fun c => cls.Accepts settings.ignoreCase c := by
  ext text
  unfold singleChars? at single
  split at single
  · obtain rfl := Option.some.inj single
    exact Regex.mem_language_charClass
  · rename_i loc written
    split at single
    · rename_i w only
      obtain rfl := Option.some.inj single
      have small : w.toNat ≤ Text.lastCode := (admitted (.single w) List.mem_cons_self).2
      have accepts : ∀ v, CharClass.Accepts settings.ignoreCase ⟨false, [.single w]⟩ v ↔
          if settings.ignoreCase then v ∈ Text.caseForms w else v = w := by
        intro v
        have item : ∀ x, (ClassPart.single w).contains x = true ↔ x = w := by
          intro x
          simp only [ClassPart.contains, ClassPart.first, ClassPart.last, Bool.and_eq_true]
          constructor
          · exact fun both => Char.le_antisymm (of_decide_eq_true both.2) (of_decide_eq_true both.1)
          · rintro rfl
            exact ⟨decide_eq_true (Char.le_refl _), decide_eq_true (Char.le_refl _)⟩
        simp only [CharClass.Accepts, CharClass.Names, List.mem_singleton, exists_eq_left, item, iff_true]
        cases settings.ignoreCase with
        | false =>
          simp only [Bool.false_eq_true, false_and, or_false, if_false]
          exact ⟨And.right, fun same => ⟨same ▸ small, same⟩⟩
        | true =>
          simp only [true_and, if_true]
          constructor
          · rintro ⟨_, rfl | form⟩
            · exact Text.mem_caseForms.mpr (.inl rfl)
            · exact form
          · exact fun form => ⟨Text.caseForms_le small form, .inr form⟩
      rw [Regex.mem_language_literal, only, singles_congr accepts]
      show text ∈ spelled settings.ignoreCase [w] ↔ _
      rw [spelled_cons, spelled_nil, mul_one]
    · cases single
  · cases single

/-- The texts of the alternatives that read one character, if there are any. -/
def charTexts : Option (List CodeRange) → Language Char
  | none => 0
  | some ranges => singles fun c => Covers ranges c.toNat

/-- What has been gathered from some of the alternatives matches what they match. -/
structure Gathered (settings : BuildSettings) (done : List Regex) (parts : List ChoicePart)
    (chars : Option (List CodeRange)) : Prop where
  place : ChoicePart.chars ∈ parts ↔ chars.isSome = true
  texts : ∀ text, (∃ r ∈ done, text ∈ languageOf settings r) ↔
    text ∈ charTexts chars ∨ ∃ r, ChoicePart.other r ∈ parts ∧ text ∈ languageOf settings r

/-- Takes in one more alternative. -/
def gatherOne (settings : BuildSettings) (gathered : List ChoicePart × Option (List CodeRange)) (r : Regex) :
    Build (List ChoicePart × Option (List CodeRange)) :=
  match singleChars? r with
  | none => return (gathered.1 ++ [ChoicePart.other r], gathered.2)
  | some cls => do
    let more ← admittedRanges settings r.location cls
    match gathered.2 with
    | some ranges => return (gathered.1, some (ranges ++ more))
    | none => return (gathered.1 ++ [ChoicePart.chars], some more)

theorem gatherOne_ok {gathered after : List ChoicePart × Option (List CodeRange)} {r : Regex} {done : List Regex}
    (before : Gathered settings done gathered.1 gathered.2)
    (run : gatherOne settings gathered r c = .ok after c') :
    c'.graph = c.graph ∧ Gathered settings (done ++ [r]) after.1 after.2 := by
  obtain ⟨parts, chars⟩ := gathered
  have split : ∀ text, (∃ s ∈ done ++ [r], text ∈ languageOf settings s) ↔
      (∃ s ∈ done, text ∈ languageOf settings s) ∨ text ∈ languageOf settings r := by
    intro text
    simp only [List.mem_append, List.mem_singleton, or_and_right, exists_or, exists_eq_left]
  unfold gatherOne at run
  cases single : singleChars? r with
  | none =>
    rw [single] at run
    obtain ⟨rfl, rfl⟩ := pure_ok run
    refine ⟨rfl, ⟨by simpa using before.place, fun text => ?_⟩⟩
    rw [split, before.texts]
    simp only [List.mem_append, List.mem_singleton, ChoicePart.other.injEq, or_and_right, exists_or,
      exists_eq_left, or_assoc]
  | some cls =>
    rw [single] at run
    obtain ⟨more, between, checked, rest⟩ := bind_ok run
    obtain ⟨same, admitted, ranges⟩ := admittedRanges_ok checked
    have here : ∀ text, text ∈ languageOf settings r ↔ text ∈ singles fun c => Covers more c.toNat := by
      intro text
      rw [languageOf_singleChars single admitted, ranges,
        singles_congr fun c => (covers_acceptedRanges admitted).symm]
    cases chars with
    | some old =>
      obtain ⟨rfl, rfl⟩ := pure_ok rest
      refine ⟨same, ⟨before.place, fun text => ?_⟩⟩
      have both : text ∈ charTexts (some (old ++ more)) ↔
          text ∈ charTexts (some old) ∨ text ∈ singles fun c => Covers more c.toNat := by
        constructor
        · rintro ⟨v, rfl, covered⟩
          exact (Text.CodeRange.covers_append.mp covered).imp (⟨v, rfl, ·⟩) (⟨v, rfl, ·⟩)
        · rintro (⟨v, rfl, covered⟩ | ⟨v, rfl, covered⟩)
          · exact ⟨v, rfl, Text.CodeRange.covers_append.mpr (.inl covered)⟩
          · exact ⟨v, rfl, Text.CodeRange.covers_append.mpr (.inr covered)⟩
      rw [split, before.texts, here, both]
      grind
    | none =>
      obtain ⟨rfl, rfl⟩ := pure_ok rest
      refine ⟨same, ⟨by simp, fun text => ?_⟩⟩
      have others : (∃ s, ChoicePart.other s ∈ parts ++ [ChoicePart.chars] ∧ text ∈ languageOf settings s) ↔
          ∃ s, ChoicePart.other s ∈ parts ∧ text ∈ languageOf settings s := by simp
      have nothing : text ∉ charTexts none := Language.notMem_zero text
      rw [split, before.texts, here, others]
      show _ ↔ text ∈ singles (fun c => Covers more c.toNat) ∨ _
      grind

theorem gatherAll_ok {gathered after : List ChoicePart × Option (List CodeRange)} {rest done : List Regex}
    (before : Gathered settings done gathered.1 gathered.2)
    (run : rest.foldlM (gatherOne settings) gathered c = .ok after c') :
    c'.graph = c.graph ∧ Gathered settings (done ++ rest) after.1 after.2 := by
  induction rest generalizing c gathered done with
  | nil =>
    obtain ⟨rfl, rfl⟩ := pure_ok run
    exact ⟨rfl, by rwa [List.append_nil]⟩
  | cons r others ih =>
    obtain ⟨between, c₁, first, run⟩ := bind_ok run
    obtain ⟨same, here⟩ := gatherOne_ok before first
    obtain ⟨sameRest, all⟩ := ih here run
    rw [List.append_assoc] at all
    exact ⟨sameRest.trans same, all⟩

theorem gatherChars_eq (alternatives : List Regex) :
    gatherChars settings alternatives = do
      let (parts, chars) ← alternatives.foldlM (gatherOne settings) ([], none)
      return (parts, CodeRange.normalize (chars.getD [])) := rfl

/-- The texts of a part of a choice. -/
def partTexts (settings : BuildSettings) (ranges : List CodeRange) : ChoicePart → Language Char
  | .chars => singles fun c => Covers ranges c.toNat
  | .other r => languageOf settings r

theorem gatherChars_ok {alternatives : List Regex} {parts : List ChoicePart} {ranges : List CodeRange}
    (run : gatherChars settings alternatives c = .ok (parts, ranges) c') :
    c'.graph = c.graph ∧ ∀ text, (∃ p ∈ parts, text ∈ partTexts settings ranges p) ↔
      ∃ r ∈ alternatives, text ∈ languageOf settings r := by
  rw [gatherChars_eq] at run
  obtain ⟨⟨gathered, chars⟩, between, all, rest⟩ := bind_ok run
  have begun : Gathered settings [] [] none :=
    ⟨by simp, fun text => by simp [charTexts, Language.notMem_zero]⟩
  obtain ⟨same, whole⟩ := @gatherAll_ok _ _ _ ([], none) _ _ _ begun all
  obtain ⟨result, rfl⟩ := pure_ok rest
  obtain ⟨rfl, rfl⟩ := Prod.mk.inj result
  refine ⟨same, fun text => ?_⟩
  rw [← List.nil_append alternatives, whole.texts]
  have normal : ∀ v : Char, Covers (CodeRange.normalize (chars.getD [])) v.toNat ↔ Covers (chars.getD []) v.toNat :=
    fun v => Text.CodeRange.covers_normalize
  constructor
  · rintro ⟨p, member, matched⟩
    cases p with
    | chars =>
      have some := whole.place.mp member
      cases chars with
      | none => cases some
      | some written =>
        refine .inl ?_
        rwa [partTexts, singles_congr normal] at matched
    | other r => exact .inr ⟨r, member, matched⟩
  · rintro (matched | ⟨r, member, matched⟩)
    · cases chars with
      | none => exact absurd matched (Language.notMem_zero text)
      | some written =>
        refine ⟨.chars, whole.place.mpr rfl, ?_⟩
        rwa [partTexts, singles_congr normal]
    · exact ⟨.other r, member, matched⟩

/-- Building follows the expression. -/
theorem expression_makes (depth : Nat) (active : List String) (r : Regex) :
    Makes (expression settings depth active r) (languageOf settings r) := by
  induction depth generalizing active r with
  | zero =>
    intro c f c' run
    cases run
  | succ depth ih =>
    cases r with
    | literal loc written =>
      have same : languageOf settings (.literal loc written) = spelled settings.ignoreCase written.toList := by
        ext text
        exact Regex.mem_language_literal
      rw [same]
      exact text_makes settings loc written.toList
    | charClass loc cls =>
      intro c f c' run
      obtain ⟨ranges, between, checked, rest⟩ := bind_ok run
      obtain ⟨graph, admitted, rfl⟩ := admittedRanges_ok checked
      have same : languageOf settings (.charClass loc cls) =
          singles fun c => Covers (acceptedRanges settings.ignoreCase cls) c.toNat := by
        rw [singles_congr fun c => covers_acceptedRanges admitted]
        exact languageOf_singleChars rfl admitted
      rw [same, ← graph]
      exact oneChar_makes _ _ _ _ rest
    | sequence loc parts =>
      show Makes (inTurn (parts.map (expression settings depth active))) _
      rw [languageOf, Regex.language_sequence]
      exact inTurn_makes fun r _ => ih active r
    | choice loc alternatives =>
      intro c f c' run
      unfold expression at run
      cases splice : spliceChoices settings.definitions active [] alternatives with
      | error fault =>
        rw [splice] at run
        obtain ⟨_, _, thrown, _⟩ := bind_ok run
        cases thrown
      | ok all =>
      rw [splice] at run
      obtain ⟨_, _, spliced, rest⟩ := bind_ok run
      obtain ⟨rfl, rfl⟩ := pure_ok spliced
      obtain ⟨⟨parts, ranges⟩, c₂, gathered, rest⟩ := bind_ok rest
      obtain ⟨graph, texts⟩ := gatherChars_ok gathered
      have same : languageOf settings (.choice loc alternatives) =
          {text | ∃ p ∈ parts, text ∈ partTexts settings ranges p} := by
        ext text
        rw [languageOf, Regex.mem_language_choice, ← (splicesTo_of_ok splice).language]
        exact (texts text).symm
      rw [same, ← graph]
      refine oneOf_makes (fun p _ => ?_) _ _ _ rest
      cases p with
      | chars => exact oneChar_makes ranges
      | other r => exact ih active r
    | repetition loc body least most =>
      intro c f c' run
      unfold expression at run
      by_cases wrong : most.any (· < least) = true
      · dsimp only at run
        rw [if_pos wrong] at run
        obtain ⟨_, _, thrown, _⟩ := bind_ok run
        cases thrown
      · dsimp only at run
        rw [if_neg wrong] at run
        refine repeated_makes (ih active body) least most (fun bound isMost => ?_) _ _ _ run
        subst isMost
        simpa using wrong
    | reference loc label =>
      intro c f c' run
      unfold expression at run
      cases found : settings.definitions.lookup label with
      | none =>
        rw [found] at run
        cases run
      | some r =>
        rw [found] at run
        dsimp only at run
        rw [languageOf, Regex.language_reference found]
        by_cases again : active.contains label = true
        · rw [if_pos again] at run
          cases run
        · rw [if_neg again] at run
          exact ih _ r _ _ _ run

end Build

namespace Graph

/-- A build that comes through adds a fragment with the language of the expression. -/
theorem build_ok {g : Graph} {settings : BuildSettings} {r : Regex} {f : Fragment}
    (ok : (g.build settings r).outcome = .ok f) :
    f.start = g.size ∧
      Constructed g (g.build settings r).graph f.stop (r.language settings.definitions settings.ignoreCase) := by
  unfold build at ok ⊢
  split at ok
  · rename_i made c run
    obtain rfl := Except.ok.inj ok
    exact Build.expression_makes _ _ _ _ _ _ run
  · cases ok

end Graph

end TokenTables.Automaton
