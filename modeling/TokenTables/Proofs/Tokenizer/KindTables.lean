import TokenTables.Proofs.Grammar.Draft
import TokenTables.Proofs.Tokenizer.KindSlots

/-!
The finished tables by kind against the rules of the grammar. They have taken in every rule of every lexical state, and of
the end of the input they keep what the only rule says that says anything about it.
-/

namespace TokenTables

/-! ### The end of the input -/

namespace KindTables

variable {g : Grammar} {k : KindTables} {options : GenerationOptions} {n : Kind}

end KindTables

namespace Grammar

variable {g : Grammar} {i : Nat} {r : DeclaredRule}

/-- A rule of a lexical state that is not private, of a kind. -/
theorem heeded_rulesBefore {n : Kind} : Heeded (g.rulesBefore g.states.length) n i r ↔
    r ∈ g.rulesIn i ∧ r.regex.isPrivate = false ∧ r.regex.kind = n :=
  and_congr_left fun _ => mem_rulesBefore

end Grammar

namespace Assembly

variable {g : Grammar} {options : GenerationOptions}

theorem nextState?_tokenizer (a : Assembly) (n : Kind) :
    (tokenizer g options a).nextState? n = (a.kinds.slot n).nextState := by
  unfold Tokenizer.nextState? tokenizer KindTables.slot
  dsimp only
  rw [List.getElem?_map, Array.getElem?_toList, Array.getD_eq_getD_getElem?]
  cases a.kinds.slots[n]? <;> rfl

theorem meaning?_tokenizer {a : Assembly} (room : 0 < a.kinds.slots.size) (n : Kind) :
    (tokenizer g options a).meaning? n = a.kinds.meaning options.ignoreCase n := by
  unfold Tokenizer.meaning? tokenizer
  dsimp only
  rw [List.getElem?_map]
  by_cases inside : n < a.kinds.slots.size
  · rw [List.getElem?_range inside]
    rfl
  · have late : a.kinds.slots.size ≤ n := Nat.le_of_not_lt inside
    have notEnd : n ≠ Kind.endOfInput := Nat.ne_of_gt (room.trans_le late)
    have blank : a.kinds.slot n = {} := by
      unfold KindTables.slot
      rw [Array.getD_eq_getD_getElem?, Array.getElem?_eq_none late]
      rfl
    rw [List.getElem?_eq_none (by rwa [List.length_range])]
    unfold KindTables.meaning
    rw [blank, if_neg notEnd]
    rfl

end Assembly

/-! ### Finished tables -/

namespace Tokenizer

/-- No table has anything on the kind. -/
structure Ignores (t : Tokenizer) (k : Kind) : Prop where
  tokens : t.tokens.contains k = false
  skipped : t.skipped.contains k = false
  unfinished : t.unfinished.contains k = false
  specials : t.specials.contains k = false
  meaning : t.meaning? k = none

end Tokenizer

namespace TakenIn

variable {g : Grammar} {options : GenerationOptions} {a : Assembly} {i : Nat} {r : DeclaredRule}

theorem only (own : g.OwnKinds) (member : r ∈ g.rulesIn i) {j : Nat} {s : DeclaredRule}
    (heeded : Heeded (g.rulesBefore g.states.length) r.regex.kind j s) : s = r :=
  Grammar.rule_of_kind own.distinct (Grammar.mem_rulesBefore.mp heeded.1) member heeded.2.2

variable (taken : TakenIn g (g.rulesBefore g.states.length) a.kinds)

include taken

theorem contains_kept (own : g.OwnKinds) (member : r ∈ g.rulesIn i) (isPublic : r.regex.isPrivate = false)
    (c : Disposition) : (a.kinds.kept c).contains r.regex.kind = true ↔ r.disposition.CountsAs c := by
  rw [taken.kept]
  constructor
  · rintro (⟨_, atEnd⟩ | ⟨j, s, heeded, counts⟩)
    · exact absurd atEnd (own.apart r.regex (Grammar.regex_of_rulesIn member))
    · exact only own member heeded ▸ counts
  · exact fun counts => .inr ⟨i, r, Grammar.heeded_rulesBefore.mpr ⟨member, isPublic, rfl⟩, counts⟩

theorem disposition? (own : g.OwnKinds) (member : r ∈ g.rulesIn i) (isPublic : r.regex.isPrivate = false) :
    (Assembly.tokenizer g options a).disposition? r.regex.kind = some r.disposition := by
  have specials := taken.contains_kept own member isPublic .special
  have skipped := taken.contains_kept own member isPublic .skip
  have unfinished := taken.contains_kept own member isPublic .more
  have tokens := taken.contains_kept own member isPublic .token
  show (if (a.kinds.kept .special).contains r.regex.kind then some Disposition.special
    else if (a.kinds.kept .skip).contains r.regex.kind then some .skip
    else if (a.kinds.kept .more).contains r.regex.kind then some .more
    else if (a.kinds.kept .token).contains r.regex.kind then some .token else none) = _
  simp only [specials, skipped, unfinished, tokens, Disposition.CountsAs]
  cases r.disposition <;> simp

theorem meaning? (own : g.OwnKinds) (member : r ∈ g.rulesIn i) (isPublic : r.regex.isPrivate = false) :
    ∃ m, (Assembly.tokenizer g options a).meaning? r.regex.kind = some m ∧ m.kind = r.regex.kind ∧
      m.disposition = r.disposition := by
  have notEnd := own.apart r.regex (Grammar.regex_of_rulesIn member)
  have regex := (taken.regex _ notEnd r.regex).mpr ⟨i, r, Grammar.mem_rulesBefore.mpr member, rfl, rfl⟩
  have disposition := (taken.disposition _ notEnd r.disposition).mpr
    ⟨i, r, Grammar.heeded_rulesBefore.mpr ⟨member, isPublic, rfl⟩, rfl⟩
  rw [Assembly.meaning?_tokenizer (by rw [taken.room]; exact Nat.succ_pos _)]
  unfold KindTables.meaning
  dsimp only
  rw [if_neg notEnd, regex, disposition]
  simp [isPublic]

theorem nextState? (own : g.OwnKinds) (knows : g.KnowsTargets) (member : r ∈ g.rulesIn i)
    (isPublic : r.regex.isPrivate = false) :
    g.LeadsTo r.rule i (((Assembly.tokenizer g options a).nextState? r.regex.kind).getD i) := by
  have notEnd := own.apart r.regex (Grammar.regex_of_rulesIn member)
  have landing := lands (fun _ _ => only own member) (Grammar.heeded_rulesBefore.mpr ⟨member, isPublic, rfl⟩)
    (taken.next _ notEnd)
  rw [Assembly.nextState?_tokenizer, landing]
  exact (knows.leadsTo_iff (Grammar.rule_of_rulesIn member)).mpr rfl

/-- A kind that no lexical state has a public rule for is in no table. -/
theorem ignores {n : Kind} (notEnd : n ≠ Kind.endOfInput)
    (unheeded : ∀ i, ∀ r ∈ g.rulesIn i, r.regex.kind = n → r.regex.isPrivate = true) :
    (Assembly.tokenizer g options a).Ignores n := by
  have absent : ∀ {i r}, ¬ Heeded (g.rulesBefore g.states.length) n i r := fun {i r} heeded => by
    obtain ⟨member, isPublic, ofKind⟩ := Grammar.heeded_rulesBefore.mp heeded
    rw [unheeded i r member ofKind] at isPublic
    cases isPublic
  have outside : ∀ c, (a.kinds.kept c).contains n = false := fun c =>
    Bool.eq_false_iff.mpr fun contained => by
      obtain ⟨_, atEnd⟩ | ⟨i, r, heeded, _⟩ := (taken.kept c n).mp contained
      · exact notEnd atEnd
      · exact absent heeded
  refine ⟨outside .token, outside .skip, outside .more, outside .special, ?_⟩
  rw [Assembly.meaning?_tokenizer (by rw [taken.room]; exact Nat.succ_pos _)]
  have undisposed : (a.kinds.slot n).disposition = none := Option.eq_none_iff_forall_not_mem.mpr fun d known => by
    obtain ⟨i, r, heeded, _⟩ := (taken.disposition n notEnd d).mp known
    exact absent heeded
  unfold KindTables.meaning
  dsimp only
  rw [if_neg notEnd, undisposed]
  cases (a.kinds.slot n).regex <;> rfl

theorem mem_reachedByMore (knows : g.KnowsTargets) {i : Nat} : i ∈ a.kinds.reachedByMore ↔
    ∃ j, ∃ r ∈ g.rulesIn j, r.regex.isPrivate = false ∧ r.disposition = .more ∧ g.LeadsTo r.rule j i := by
  rw [taken.reached]
  refine exists_congr fun j => exists_congr fun r => ?_
  rw [Grammar.heeded_rulesBefore]
  constructor
  · rintro ⟨⟨member, isPublic, _⟩, isMore, leads⟩
    exact ⟨member, isPublic, isMore, (knows.leadsTo_iff (Grammar.rule_of_rulesIn member)).mpr leads⟩
  · rintro ⟨member, isPublic, isMore, leads⟩
    exact ⟨⟨member, isPublic, rfl⟩, isMore, (knows.leadsTo_iff (Grammar.rule_of_rulesIn member)).mp leads⟩

theorem reachedByMore (knows : g.KnowsTargets) (states : a.states.length = g.states.length) (i : Nat) :
    (∃ s, (Assembly.tokenizer g options a).states[i]? = some s ∧ s.reachedByMore = true) ↔
      ∃ j, ∃ r ∈ g.rulesIn j, r.regex.isPrivate = false ∧ r.disposition = .more ∧ g.LeadsTo r.rule j i := by
  rw [← taken.mem_reachedByMore knows]
  constructor
  · rintro ⟨s, present, reached⟩
    have inside := (List.getElem?_eq_some_iff.mp present).1
    unfold Assembly.tokenizer at inside
    rw [List.length_map, List.length_zipIdx] at inside
    rw [Assembly.tokenizer_state (List.getElem?_eq_getElem inside)] at present
    obtain rfl := Option.some.inj present
    exact List.contains_iff_mem.mp reached
  · intro reached
    obtain ⟨j, r, member, _, _, leads⟩ := (taken.mem_reachedByMore knows).mp reached
    have inside : i < a.states.length := by
      rw [states]
      cases leads with
      | staying => exact Grammar.lt_length_of_rulesIn member
      | going _ place => exact Grammar.stateIndex?_lt place
    exact ⟨_, Assembly.tokenizer_state (List.getElem?_eq_getElem inside), List.contains_iff_mem.mpr reached⟩

end TakenIn

namespace GrammarDraft

end GrammarDraft

end TokenTables
