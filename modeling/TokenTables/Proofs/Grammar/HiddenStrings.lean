import Mathlib
import TokenTables.Proofs.Tokenizer.Generate

/-!
Strings hidden by others. A string may come after one of its fold that ignores case only if it ignores case as well and a
string still earlier, which minds case, is spelled like it; the checks accept the strings of a grammar just when each of
them may come after those before it.
-/

namespace TokenTables

/-- Two members of a list come in one order or in the other. -/
theorem pair_sublist {α : Type} {a b : α} {xs : List α} (first : a ∈ xs) (second : b ∈ xs) (apart : a ≠ b) :
    [a, b].Sublist xs ∨ [b, a].Sublist xs := by
  obtain ⟨before, after, rfl⟩ := List.append_of_mem first
  rcases List.mem_append.mp second with early | late
  · refine .inr ?_
    have there : [b].Sublist before := List.singleton_sublist.mpr early
    exact there.append (List.singleton_sublist.mpr List.mem_cons_self)
  · refine .inl (List.Sublist.trans ?_ (List.sublist_append_right before _))
    exact (List.singleton_sublist.mpr ((List.mem_cons.mp late).resolve_left (Ne.symm apart))).cons_cons a

/-- A statement on every place of a list, for its first place and for the others. -/
theorem forall_split_cons {α : Type} {P : List α → α → Prop} {x : α} {xs : List α} :
    (∀ before y after, x :: xs = before ++ y :: after → P before y) ↔
      P [] x ∧ ∀ before y after, xs = before ++ y :: after → P (x :: before) y := by
  constructor
  · exact fun all => ⟨all [] x xs rfl, fun before y after same => all (x :: before) y after (congrArg (x :: ·) same)⟩
  · rintro ⟨here, later⟩ before y after same
    rcases List.cons_eq_append_iff.mp same with ⟨rfl, first⟩ | ⟨more, rfl, rest⟩
    · obtain ⟨rfl, _⟩ := List.cons.inj first
      exact here
    · exact later more y after rest

namespace SeenString

variable {s t : SeenString} {before seen : List SeenString} {stateName : Option String}

theorem rivals_iff : s.rivals t = true ↔ s.state = t.state ∧ s.folded = t.folded := by
  unfold rivals
  rw [Bool.and_eq_true, beq_iff_eq, beq_iff_eq]

theorem rivals_of_spelled (state : t.state = s.state) (image : t.image = s.image) : s.rivals t = true :=
  rivals_iff.mpr ⟨state.symm, by unfold folded; rw [image]⟩

/-- The string may come after the others. -/
structure MayFollow (before : List SeenString) (s : SeenString) : Prop where
  mindful : s.ignoreCase = false → ∀ other ∈ before, s.rivals other = true →
    other.ignoreCase = false ∧ other.image ≠ s.image
  general : s.ignoreCase = true → (∃ other ∈ before, s.rivals other = true ∧ other.ignoreCase = true) →
    (∃ exact ∈ before, s.rivals exact = true ∧ exact.ignoreCase = false ∧ exact.image = s.image) ∧
      ∀ other ∈ before, s.rivals other = true → other.ignoreCase = true → other.image ≠ s.image

/-- What is remembered of the strings before: of each state and spelling one, and all that ignore case. -/
structure Remembers (before seen : List SeenString) : Prop where
  sound : ∀ s ∈ seen, s ∈ before
  general : ∀ s ∈ before, s.ignoreCase = true → s ∈ seen
  spelled : ∀ s ∈ before, s ∈ seen ∨ ∃ t ∈ seen, t.ignoreCase = true ∧ t.state = s.state ∧ t.image = s.image
  distinct : seen.Nodup
  unique : ∀ s ∈ seen, ∀ t ∈ seen, s.state = t.state → s.image = t.image → s = t

theorem remembers_nil : Remembers [] [] :=
  ⟨fun _ none => none, fun _ none => (nomatch none), fun _ none => (nomatch none), .nil, fun _ none => (nomatch none)⟩

/-- The rival that is spelled alike. -/
def twin? (s : SeenString) (seen : List SeenString) : Option SeenString :=
  (seen.filter s.rivals).find? (·.image == s.image)

theorem twin?_some (found : s.twin? seen = some t) : t ∈ seen ∧ t.state = s.state ∧ t.image = s.image := by
  unfold twin? at found
  obtain ⟨member, rival⟩ := List.mem_filter.mp (List.mem_of_find?_eq_some found)
  have image := List.find?_some found
  exact ⟨member, (rivals_iff.mp rival).1.symm, beq_iff_eq.mp image⟩

theorem twin?_none : s.twin? seen = none ↔ ∀ t ∈ seen, t.state = s.state → t.image ≠ s.image := by
  unfold twin?
  rw [List.find?_eq_none]
  constructor
  · intro none t member state image
    exact none t (List.mem_filter.mpr ⟨member, rivals_of_spelled state image⟩) (beq_iff_eq.mpr image)
  · intro none t listed image
    obtain ⟨member, rival⟩ := List.mem_filter.mp listed
    exact none t member (rivals_iff.mp rival).1.symm (beq_iff_eq.mp image)

/-- Nothing hides a string that one minding case is spelled like, or none of whose rivals ignores case. -/
theorem hiding?_none : s.hiding? (seen.filter s.rivals) = none ↔
    (∃ exact, s.twin? seen = some exact ∧ exact.ignoreCase = false) ∨
      ∀ other ∈ seen, s.rivals other = true → other.ignoreCase = false := by
  have all : (seen.filter s.rivals).find? (·.ignoreCase) = none ↔
      ∀ other ∈ seen, s.rivals other = true → other.ignoreCase = false := by
    rw [List.find?_eq_none]
    simp only [List.mem_filter, Bool.not_eq_true, and_imp]
  unfold hiding?
  cases exact : (seen.filter s.rivals).find? (·.image == s.image) with
  | none =>
    dsimp only
    rw [all]
    constructor
    · exact .inr
    · rintro (⟨t, same, _⟩ | minds)
      · exact nomatch exact.symm.trans same
      · exact minds
  | some t =>
    dsimp only
    obtain ⟨member, state, image⟩ := twin?_some exact
    cases ignores : t.ignoreCase with
    | true =>
      rw [if_pos rfl, all]
      constructor
      · exact .inr
      · rintro (⟨u, same, minds⟩ | minds)
        · obtain rfl := Option.some.inj (exact.symm.trans same)
          rw [ignores] at minds
          cases minds
        · exact minds
    | false =>
      rw [if_neg Bool.false_ne_true]
      exact ⟨fun _ => .inl ⟨t, exact, ignores⟩, fun _ => rfl⟩

/-- A string is entered without an error just when nothing hides it and it is no duplicate. -/
theorem enter_noError : (∀ d ∈ (s.enter seen stateName).2, d.isError = false) ↔
    s.hiding? (seen.filter s.rivals) = none ∧ (s.ignoreCase = true ∨ s.twin? seen = none) := by
  unfold enter
  dsimp only
  cases s.hiding? (seen.filter s.rivals) with
  | some general => simp [hiddenReport, Diagnostic.isError, Diagnostic.error, Diagnostic.pointingAt, Diagnostic.mentioning]
  | none =>
    have alone : seen.filter s.rivals = [] → s.twin? seen = none := fun empty => by
      unfold twin?
      rw [empty]
      rfl
    change _ ↔ none = none ∧ _
    dsimp only
    split
    · rename_i superseded
      obtain ⟨ignores, _⟩ := Bool.and_eq_true_iff.mp superseded
      simp [ignores, supersededReport, Diagnostic.isError, Diagnostic.warning, Diagnostic.pointingAt]
    · rename_i notSuperseded
      cases exact : (seen.filter s.rivals).find? (·.image == s.image) with
      | none =>
        have none : s.twin? seen = Option.none := exact
        simp [none]
      | some first =>
        have some : s.twin? seen = Option.some first := exact
        have minds : s.ignoreCase = false := by
          by_contra ignores
          refine notSuperseded (Bool.and_eq_true_iff.mpr ⟨by simpa using ignores, ?_⟩)
          cases rivals : (seen.filter s.rivals).isEmpty with
          | false => rfl
          | true => exact nomatch some.symm.trans (alone (List.isEmpty_iff.mp rivals))
        simp [some, minds, duplicateReport, Diagnostic.isError, Diagnostic.error, Diagnostic.pointingAt,
          Diagnostic.mentioning]

/-- A string that is neither hidden by what is remembered of those before nor a duplicate of it may come after them. -/
theorem Remembers.mayFollow (remembers : Remembers before seen) (notHidden : s.hiding? (seen.filter s.rivals) = none)
    (noDuplicate : s.ignoreCase = true ∨ s.twin? seen = none) : s.MayFollow before := by
  rw [hiding?_none] at notHidden
  constructor
  · intro minds other member rival
    have none := noDuplicate.resolve_left (by rw [minds]; exact Bool.false_ne_true)
    rcases notHidden with ⟨exact, some, _⟩ | mindful
    · exact nomatch none.symm.trans some
    · have otherMinds : other.ignoreCase = false := by
        by_contra ignores
        have ignores : other.ignoreCase = true := by simpa using ignores
        rw [mindful other (remembers.general other member ignores) rival] at ignores
        cases ignores
      refine ⟨otherMinds, fun image => ?_⟩
      have state := (rivals_iff.mp rival).1.symm
      rcases remembers.spelled other member with kept | ⟨t, kept, _, sameState, sameImage⟩
      · exact twin?_none.mp none other kept state image
      · exact twin?_none.mp none t kept (sameState.trans state) (sameImage.trans image)
  · rintro ignores ⟨hider, member, rival, hides⟩
    rcases notHidden with ⟨exact, some, minds⟩ | mindful
    · obtain ⟨kept, state, image⟩ := twin?_some some
      refine ⟨⟨exact, remembers.sound exact kept, rivals_of_spelled state image, minds, image⟩,
        fun other listed rivalToo ignoresToo imageToo => ?_⟩
      have same := remembers.unique other (remembers.general other listed ignoresToo) exact kept
        ((rivals_iff.mp rivalToo).1.symm.trans state.symm) (imageToo.trans image.symm)
      rw [same, minds] at ignoresToo
      cases ignoresToo
    · rw [mindful hider (remembers.general hider member hides) rival] at hides
      cases hides

/-- Nothing remembered of the strings before hides one that may come after them, and it is no duplicate. -/
theorem Remembers.notHidden (remembers : Remembers before seen) (mayFollow : s.MayFollow before) :
    s.hiding? (seen.filter s.rivals) = none ∧ (s.ignoreCase = true ∨ s.twin? seen = none) := by
  rw [hiding?_none]
  cases ignores : s.ignoreCase with
  | false =>
    have mindful := mayFollow.mindful ignores
    refine ⟨.inr fun other kept rival => (mindful other (remembers.sound other kept) rival).1, .inr ?_⟩
    exact twin?_none.mpr fun t kept state image =>
      (mindful t (remembers.sound t kept) (rivals_of_spelled state image)).2 image
  | true =>
    refine ⟨?_, .inl rfl⟩
    by_cases hidden : ∃ other ∈ before, s.rivals other = true ∧ other.ignoreCase = true
    · obtain ⟨⟨exact, member, rival, minds, image⟩, noGeneral⟩ := mayFollow.general ignores hidden
      have state := (rivals_iff.mp rival).1.symm
      have kept : exact ∈ seen := by
        rcases remembers.spelled exact member with kept | ⟨t, kept, ignoresToo, sameState, sameImage⟩
        · exact kept
        · exact absurd (sameImage.trans image) (noGeneral t (remembers.sound t kept)
            (rivals_of_spelled (sameState.trans state) (sameImage.trans image)) ignoresToo)
      cases some : s.twin? seen with
      | none => exact absurd image (twin?_none.mp some exact kept state)
      | some t =>
        obtain ⟨keptToo, stateToo, imageToo⟩ := twin?_some some
        obtain rfl := remembers.unique t keptToo exact kept (stateToo.trans state.symm) (imageToo.trans image.symm)
        exact .inl ⟨t, rfl, minds⟩
    · refine .inr fun other kept rival => ?_
      by_contra ignoresToo
      exact hidden ⟨other, remembers.sound other kept, rival, by simpa using ignoresToo⟩

/-- What is remembered of the strings before tells whether the string may come after them. -/
theorem Remembers.enter_iff (remembers : Remembers before seen) :
    (∀ d ∈ (s.enter seen stateName).2, d.isError = false) ↔ s.MayFollow before := by
  rw [enter_noError]
  exact ⟨fun fine => remembers.mayFollow fine.1 fine.2, remembers.notHidden⟩

/-- A string entered without an error takes the place of one that is spelled like it. -/
theorem enter_seen (noError : ∀ d ∈ (s.enter seen stateName).2, d.isError = false) :
    s.twin? seen = none ∧ (s.enter seen stateName).1 = seen ++ [s] ∨
      ∃ exact, s.twin? seen = some exact ∧ exact.ignoreCase = false ∧ s.ignoreCase = true ∧
        (s.enter seen stateName).1 = seen.erase exact ++ [s] := by
  obtain ⟨notHidden, noDuplicate⟩ := enter_noError.mp noError
  have minds : ∀ exact, s.twin? seen = some exact → exact.ignoreCase = false := by
    intro exact some
    obtain ⟨member, state, image⟩ := twin?_some some
    rcases hiding?_none.mp notHidden with ⟨t, same, minds⟩ | mindful
    · obtain rfl := Option.some.inj (some.symm.trans same)
      exact minds
    · exact mindful exact member (rivals_of_spelled state image)
  unfold enter
  dsimp only
  rw [notHidden]
  dsimp only
  cases exact : s.twin? seen with
  | none =>
    unfold twin? at exact
    rw [exact]
    refine .inl ⟨rfl, ?_⟩
    split <;> rfl
  | some e =>
    have ignores := noDuplicate.resolve_right (by rw [exact]; exact Option.some_ne_none e)
    obtain ⟨member, state, image⟩ := twin?_some exact
    have rivals : (seen.filter s.rivals).isEmpty = false :=
      List.isEmpty_eq_false_iff_exists_mem.mpr ⟨e, List.mem_filter.mpr ⟨member, rivals_of_spelled state image⟩⟩
    refine .inr ⟨e, rfl, minds e exact, ignores, ?_⟩
    unfold twin? at exact
    rw [if_pos (by rw [ignores, rivals]; rfl), exact]

/-- A string is remembered after those that are kept, if whatever is not kept is spelled like it and minds case. -/
theorem Remembers.add (remembers : Remembers before seen) {kept : List SeenString} (sub : kept.Sublist seen)
    (gone : ∀ t ∈ seen, t ∈ kept ∨ t.ignoreCase = false ∧ s.ignoreCase = true ∧ t.state = s.state ∧ t.image = s.image)
    (new : ∀ t ∈ kept, t.state = s.state → t.image ≠ s.image) : Remembers (before ++ [s]) (kept ++ [s]) := by
  have stays : ∀ t ∈ seen, t.ignoreCase = true → t ∈ kept := by
    intro t member ignores
    refine (gone t member).resolve_right fun minds => ?_
    rw [minds.1] at ignores
    cases ignores
  refine ⟨fun t member => ?_, fun t member ignores => ?_, fun t member => ?_, ?_, fun a first b second state image => ?_⟩
  · rcases List.mem_append.mp member with old | here
    · exact List.mem_append_left _ (remembers.sound t (sub.subset old))
    · exact List.mem_append_right _ here
  · rcases List.mem_append.mp member with old | here
    · exact List.mem_append_left _ (stays t (remembers.general t old ignores) ignores)
    · exact List.mem_append_right _ here
  · rcases List.mem_append.mp member with old | here
    · rcases remembers.spelled t old with inSeen | ⟨u, inSeen, ignores, state, image⟩
      · rcases gone t inSeen with inKept | ⟨_, ignores, state, image⟩
        · exact .inl (List.mem_append_left _ inKept)
        · exact .inr ⟨s, List.mem_append_right _ List.mem_cons_self, ignores, state.symm, image.symm⟩
      · exact .inr ⟨u, List.mem_append_left _ (stays u inSeen ignores), ignores, state, image⟩
    · exact .inl (List.mem_append_right _ here)
  · rw [List.nodup_append]
    refine ⟨remembers.distinct.sublist sub, List.nodup_singleton s, fun t old u here same => ?_⟩
    obtain rfl := List.mem_singleton.mp here
    exact new t old (by rw [same]) (by rw [same])
  · rcases List.mem_append.mp first with oldA | hereA <;> rcases List.mem_append.mp second with oldB | hereB
    · exact remembers.unique a (sub.subset oldA) b (sub.subset oldB) state image
    · obtain rfl := List.mem_singleton.mp hereB
      exact absurd image (new a oldA state)
    · obtain rfl := List.mem_singleton.mp hereA
      exact absurd image.symm (new b oldB state.symm)
    · exact (List.mem_singleton.mp hereA).trans (List.mem_singleton.mp hereB).symm

/-- A string entered without an error is remembered as well. -/
theorem Remembers.enter (remembers : Remembers before seen)
    (noError : ∀ d ∈ (s.enter seen stateName).2, d.isError = false) :
    Remembers (before ++ [s]) (s.enter seen stateName).1 := by
  rcases enter_seen noError with ⟨none, entered⟩ | ⟨exact, some, minds, ignores, entered⟩
  · rw [entered]
    exact remembers.add (.refl seen) (fun t member => .inl member) (twin?_none.mp none)
  · obtain ⟨present, state, image⟩ := twin?_some some
    rw [entered]
    refine remembers.add List.erase_sublist (fun t member => ?_) fun t member stateToo imageToo => ?_
    · by_cases same : t = exact
      · exact .inr (same ▸ ⟨minds, ignores, state, image⟩)
      · exact .inl ((List.mem_erase_of_ne same).mpr member)
    · obtain rfl := remembers.unique t (List.mem_of_mem_erase member) exact present (stateToo.trans state.symm)
        (imageToo.trans image.symm)
      exact remembers.distinct.not_mem_erase member

end SeenString

/-- A rule of a lexical state as a string, if it is for one. -/
def DeclaredRule.string? (state : Nat) (ignoreCase : Bool) (r : DeclaredRule) : Option SeenString :=
  r.regex.regex.literalText?.map fun image => ⟨state, image, r.ignoreCase || ignoreCase, r.regex.location⟩

namespace Grammar

open SeenString (MayFollow Remembers)

variable {g : Grammar} {ignoreCase : Bool}

/-! ### The strings of a grammar -/

/-- Compares one more string with those remembered. -/
def compareString (g : Grammar) (found : List SeenString × List Diagnostic) (s : SeenString) :
    List SeenString × List Diagnostic :=
  let entered := s.enter found.1 (if s.state = 0 then none else g.states[s.state]?)
  (entered.1, found.2 ++ entered.2)

theorem stringReports_eq : g.stringReports ignoreCase = ((g.strings ignoreCase).foldl g.compareString ([], [])).2 := rfl

theorem compareStrings_noError {before seen : List SeenString} (remembers : Remembers before seen) (strings : List SeenString)
    (reports : List Diagnostic) : (∀ d ∈ (strings.foldl g.compareString (seen, reports)).2, d.isError = false) ↔
      (∀ d ∈ reports, d.isError = false) ∧
        ∀ more s after, strings = more ++ s :: after → s.MayFollow (before ++ more) := by
  induction strings generalizing before seen reports with
  | nil =>
    refine ⟨fun all => ⟨all, fun more s after none => ?_⟩, fun all => all.1⟩
    simp at none
  | cons s rest ih =>
    have kept : ∀ (strings : List SeenString) found, found.2 ⊆ (strings.foldl g.compareString found).2 :=
      fun strings found => List.foldlRecOn
        (motive := fun after : List SeenString × List Diagnostic => found.2 ⊆ after.2) _ _ (List.Subset.refl _)
        fun after sub t _ => List.Subset.trans sub (List.subset_append_left _ _)
    rw [List.foldl_cons, forall_split_cons (P := fun more (s : SeenString) => s.MayFollow (before ++ more)), List.append_nil]
    by_cases noError : ∀ d ∈ (s.enter seen (if s.state = 0 then none else g.states[s.state]?)).2, d.isError = false
    · have follows := remembers.enter_iff.mp noError
      refine (ih (remembers.enter noError) (reports ++ _)).trans ?_
      simp only [List.forall_mem_append, List.append_assoc, List.singleton_append, follows, true_and]
      exact and_congr_left fun _ => and_iff_left noError
    · refine iff_of_false (fun all => noError fun d member => all d (kept rest _ (List.mem_append_right _ member)))
        fun all => noError (remembers.enter_iff.mpr all.2.1)

/-- The strings of a grammar pass the checks just when each of them may come after those before it. -/
theorem stringReports_noError : (∀ d ∈ g.stringReports ignoreCase, d.isError = false) ↔
    ∀ before s after, g.strings ignoreCase = before ++ s :: after → s.MayFollow before := by
  rw [stringReports_eq, compareStrings_noError SeenString.remembers_nil]
  simp

/-! ### The strings of a lexical state -/

/-- A regex of a production as strings, one for every state of the production, if it is for one. -/
def declaredStrings (g : Grammar) (ignoreCase : Bool) (p : Production) (t : TokenDef) : List SeenString :=
  match t.regex.literalText? with
  | none => []
  | some image => (g.stateIndices p).map fun state => ⟨state, image, p.ignoreCase || ignoreCase, t.location⟩

theorem strings_eq : g.strings ignoreCase =
    g.productions.flatMap fun p => p.regexes.flatMap (g.declaredStrings ignoreCase p) := rfl

/-- The rules of a production as a lexical state has them. -/
def declaredRules (p : Production) (rules : List TokenRule) : List DeclaredRule :=
  rules.filterMap fun r => r.regex?.map fun t => ⟨p.disposition, p.ignoreCase, r, t⟩

theorem declaredRules_sublist {p : Production} {i : Nat} (applies : i ∈ g.stateIndices p) (rules : List TokenRule) :
    ((declaredRules p rules).filterMap (·.string? i ignoreCase)).Sublist
      ((rules.filterMap (·.regex?)).flatMap (g.declaredStrings ignoreCase p)) := by
  unfold declaredRules
  induction rules with
  | nil => exact .slnil
  | cons r rest ih =>
    cases isRegex : r.regex? with
    | none =>
      rw [List.filterMap_cons_none (by rw [isRegex]; rfl), List.filterMap_cons_none isRegex]
      exact ih
    | some t =>
      rw [List.filterMap_cons_some (by rw [isRegex]; rfl), List.filterMap_cons_some isRegex, List.flatMap_cons]
      cases text : t.regex.literalText? with
      | none =>
        rw [List.filterMap_cons_none (by simp only [DeclaredRule.string?, text, Option.map_none])]
        exact ih.trans (List.sublist_append_right _ _)
      | some image =>
        rw [List.filterMap_cons_some (by simp only [DeclaredRule.string?, text, Option.map_some]; rfl)]
        have here : (⟨i, image, p.ignoreCase || ignoreCase, t.location⟩ : SeenString) ∈ g.declaredStrings ignoreCase p t := by
          unfold declaredStrings
          rw [text]
          exact List.mem_map_of_mem applies
        exact (List.singleton_sublist.mpr here).append ih

/-- The strings of a lexical state come in the order of its rules. -/
theorem strings_sublist (i : Nat) :
    ((g.rulesIn i).filterMap (·.string? i ignoreCase)).Sublist (g.strings ignoreCase) := by
  have all : ∀ ps : List Production,
      (((ps.filter fun p => (g.stateIndices p).contains i).flatMap fun p => declaredRules p p.rules).filterMap
        (·.string? i ignoreCase)).Sublist (ps.flatMap fun p => p.regexes.flatMap (g.declaredStrings ignoreCase p)) := by
    intro ps
    induction ps with
    | nil => exact .slnil
    | cons p rest ih =>
      rw [List.flatMap_cons]
      cases applies : (g.stateIndices p).contains i with
      | true =>
        rw [List.filter_cons, if_pos applies, List.flatMap_cons, List.filterMap_append]
        exact (declaredRules_sublist (List.contains_iff_mem.mp applies) p.rules).append ih
      | false =>
        rw [List.filter_cons, if_neg (by rw [applies]; exact Bool.false_ne_true)]
        exact ih.trans (List.sublist_append_right _ _)
  exact all g.productions

/-- Every string is that of a rule of its lexical state. -/
theorem rule_of_string {s : SeenString} (member : s ∈ g.strings ignoreCase) :
    ∃ r ∈ g.rulesIn s.state, r.string? s.state ignoreCase = some s := by
  rw [strings_eq] at member
  obtain ⟨p, declared, inProduction⟩ := List.mem_flatMap.mp member
  obtain ⟨t, isRegex, inStates⟩ := List.mem_flatMap.mp inProduction
  obtain ⟨rule, inRules, regex⟩ := List.mem_filterMap.mp isRegex
  unfold declaredStrings at inStates
  cases text : t.regex.literalText? with
  | none =>
    rw [text] at inStates
    cases inStates
  | some image =>
    rw [text] at inStates
    obtain ⟨state, applies, rfl⟩ := List.mem_map.mp inStates
    refine ⟨⟨p.disposition, p.ignoreCase, rule, t⟩, ?_, ?_⟩
    · refine List.mem_flatMap.mpr ⟨p, List.mem_filter.mpr ⟨declared, List.contains_iff_mem.mpr applies⟩, ?_⟩
      exact List.mem_filterMap.mpr ⟨rule, inRules, by rw [regex]; rfl⟩
    · simp only [DeclaredRule.string?, text, Option.map_some, TokenDef.location]

end Grammar

open SeenString (MayFollow)

variable {g : Grammar} {options : GenerationOptions} {i : Nat}

/-- In a grammar that passes the checks the string of a rule may come after some that that of an earlier rule is among. -/
theorem Grammar.Passes.mayFollow (passes : g.Passes options) {first later : DeclaredRule}
    (order : [first, later].Sublist (g.rulesIn i)) {s t : SeenString} (isFirst : first.string? i options.ignoreCase = some s)
    (isLater : later.string? i options.ignoreCase = some t) :
    ∃ before, s ∈ before ∧ t.MayFollow before ∧ before.Sublist (g.strings options.ignoreCase) := by
  have noError : ∀ d ∈ g.stringReports options.ignoreCase, d.isError = false := fun d member =>
    Grammar.passes_iff.mp passes d (List.mem_append_right _ member)
  have strings := (order.filterMap (·.string? i options.ignoreCase)).trans (Grammar.strings_sublist i)
  rw [List.filterMap_cons_some isFirst, List.filterMap_cons_some isLater] at strings
  obtain ⟨early, late, whole, inEarly, inLate⟩ := List.cons_sublist_iff.mp strings
  obtain ⟨between, after, rfl⟩ := List.append_of_mem (List.singleton_sublist.mp inLate)
  refine ⟨early ++ between, List.mem_append_left _ inEarly, ?_, ?_⟩
  · exact Grammar.stringReports_noError.mp noError _ t after (by rw [whole, List.append_assoc])
  · rw [whole, ← List.append_assoc]
    exact List.sublist_append_left _ _

/-- In a grammar that passes the checks a string that ignores case may come before another of its fold only if this one
ignores case too and a third one, before both, minds case and is spelled like the other. -/
theorem spelled_before_hidden (passes : g.Passes options) {first later : DeclaredRule}
    (order : [first, later].Sublist (g.rulesIn i)) {image hidden : String}
    (isFirst : first.regex.regex.literalText? = some image) (isLater : later.regex.regex.literalText? = some hidden)
    (general : (first.ignoreCase || options.ignoreCase) = true) (alike : image.map Text.toUpper = hidden.map Text.toUpper) :
    (later.ignoreCase || options.ignoreCase) = true ∧ image ≠ hidden ∧
      ∃ exact, [exact, first].Sublist (g.rulesIn i) ∧ exact.regex.regex.literalText? = some hidden ∧
        (exact.ignoreCase || options.ignoreCase) = false := by
  have firstString : first.string? i options.ignoreCase =
      some ⟨i, image, first.ignoreCase || options.ignoreCase, first.regex.location⟩ := by
    simp only [DeclaredRule.string?, isFirst, Option.map_some]
  have laterString : later.string? i options.ignoreCase =
      some ⟨i, hidden, later.ignoreCase || options.ignoreCase, later.regex.location⟩ := by
    simp only [DeclaredRule.string?, isLater, Option.map_some]
  obtain ⟨before, member, mayFollow, sub⟩ := passes.mayFollow order firstString laterString
  have rival : SeenString.rivals ⟨i, hidden, later.ignoreCase || options.ignoreCase, later.regex.location⟩
      ⟨i, image, first.ignoreCase || options.ignoreCase, first.regex.location⟩ = true :=
    SeenString.rivals_iff.mpr ⟨rfl, alike.symm⟩
  have laterIgnores : (later.ignoreCase || options.ignoreCase) = true := by
    by_contra minds
    have firstMinds := (mayFollow.mindful (by simpa using minds) _ member rival).1
    rw [show (first.ignoreCase || options.ignoreCase) = false from firstMinds] at general
    cases general
  obtain ⟨⟨exact, inBefore, exactRival, minds, spelled⟩, noGeneral⟩ := mayFollow.general laterIgnores ⟨_, member, rival, general⟩
  refine ⟨laterIgnores, noGeneral _ member rival general, ?_⟩
  obtain ⟨rule, inRules, isExact⟩ := Grammar.rule_of_string (sub.subset inBefore)
  have state : exact.state = i := (SeenString.rivals_iff.mp exactRival).1.symm
  rw [state] at inRules isExact
  obtain ⟨text, isText, same⟩ := Option.map_eq_some_iff.mp isExact
  subst same
  have apart : rule ≠ first := fun same => by
    rw [same] at minds
    exact nomatch general.symm.trans minds
  refine ⟨rule, ?_, isText.trans (congrArg some spelled), minds⟩
  rcases pair_sublist inRules (order.subset List.mem_cons_self) apart with early | late
  · exact early
  · -- A string that minds case cannot come after one of its fold that ignores case.
    obtain ⟨_, memberToo, mayFollowToo, _⟩ := passes.mayFollow late firstString isExact
    have rivalToo : SeenString.rivals ⟨i, text, rule.ignoreCase || options.ignoreCase, rule.regex.location⟩
        ⟨i, image, first.ignoreCase || options.ignoreCase, first.regex.location⟩ = true := by
      exact SeenString.rivals_iff.mpr ⟨rfl, (congrArg (String.map Text.toUpper) spelled).trans alike.symm⟩
    have firstMinds := (mayFollowToo.mindful minds _ memberToo rivalToo).1
    exact nomatch general.symm.trans firstMinds

/-- A string, the same but for case, and the string again, the last two of them without regard to case. -/
def spelledThrice : Grammar where
  states := ["DEFAULT"]
  productions :=
    [⟨.token, some ["DEFAULT"], false, [⟨.regex ⟨1, none, false, .literal .unknown "ab"⟩, none, none, .unknown⟩], .unknown⟩,
     ⟨.token, some ["DEFAULT"], true, [⟨.regex ⟨2, none, false, .literal .unknown "AB"⟩, none, none, .unknown⟩], .unknown⟩,
     ⟨.token, some ["DEFAULT"], true, [⟨.regex ⟨3, none, false, .literal .unknown "ab"⟩, none, none, .unknown⟩], .unknown⟩]

/-- The third string passes the checks though the second one is the same but for case and ignores case. -/
theorem spelledThrice_passes : spelledThrice.Passes {} ∧ ∃ exact first later, spelledThrice.rulesIn 0 = [exact, first, later] ∧
    first.ignoreCase = true ∧ first.regex.regex.literalText? = some "AB" ∧ later.regex.regex.literalText? = some "ab" ∧
    "AB".map Text.toUpper = "ab".map Text.toUpper ∧ (later.ignoreCase || false) = true ∧
    ∃ other, [other, first].Sublist (spelledThrice.rulesIn 0) ∧ other.regex.regex.literalText? = some "ab" ∧
      (other.ignoreCase || false) = false := by
  have passes : spelledThrice.Passes {} := by
    unfold Grammar.Passes
    cbv
  have rules : spelledThrice.rulesIn 0 = [⟨.token, false, ⟨.regex ⟨1, none, false, .literal .unknown "ab"⟩, none, none, .unknown⟩,
      ⟨1, none, false, .literal .unknown "ab"⟩⟩,
      ⟨.token, true, ⟨.regex ⟨2, none, false, .literal .unknown "AB"⟩, none, none, .unknown⟩,
        ⟨2, none, false, .literal .unknown "AB"⟩⟩,
      ⟨.token, true, ⟨.regex ⟨3, none, false, .literal .unknown "ab"⟩, none, none, .unknown⟩,
        ⟨3, none, false, .literal .unknown "ab"⟩⟩] := by rfl
  have folds : "AB".map Text.toUpper = "ab".map Text.toUpper := by cbv
  obtain ⟨ignores, _, other⟩ := spelled_before_hidden (i := 0) passes (by rw [rules]; exact List.sublist_cons_self _ _)
    rfl rfl rfl folds
  exact ⟨passes, _, _, _, rules, rfl, rfl, rfl, folds, ignores, other⟩

end TokenTables
