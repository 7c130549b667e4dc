import TokenTables.Proofs.Grammar.HiddenStrings
import TokenTables.Proofs.Literal.Shadowing
import TokenTables.Proofs.Tokenizer.Continuations
import TokenTables.Proofs.Tokenizer.LiteralPaths

/-!
Literals shadowed in a tokenizer. A literal is reported just when the automaton by itself matches its text as an earlier
kind, and then its text is never matched as the literal. The text of a literal is matched as its entry says just when
nothing strays in: neither the kind of any character nor what is matched by way of other literals is earlier.
-/

namespace TokenTables

open Automaton (Graph)

namespace Tokenizer

variable {t : Tokenizer} {i : Nat} {s : LexicalState} {c : Char} {text rest : List Char} {found : List Match} {m : Match}

/-- What a lexical state offers for a text with characters in it, by where it comes from, and what it matches by way of
each of its entries. -/
theorem mem_offers (ran : t.offers i s (c :: rest) = .ok found) :
    (∀ e ∈ t.literals.beginningWith i c, ∃ ms, t.literalMatches i (c :: rest) e = .ok ms) ∧
    ∀ m, m ∈ found ↔ m.length = 0 ∧ s.emptyMatch = some m.kind ∨ m.length = 1 ∧ s.wildcard = some m.kind ∨
      t.runFrom s.initial 0 (c :: rest) = .ok (some m) ∨
      ∃ e ∈ t.literals.beginningWith i c, ∃ ms, t.literalMatches i (c :: rest) e = .ok ms ∧ m ∈ ms := by
  unfold offers at ran
  obtain ⟨automaton, run, ran⟩ := Automaton.except_bind_ok ran
  obtain ⟨literals, all, ran⟩ := Automaton.except_bind_ok ran
  obtain rfl := Except.ok.inj ran
  refine ⟨fun e entered => (mapM_ok_of_mem all entered).imp fun _ both => both.2, fun m => ?_⟩
  have ofKind : ∀ (kind : Option Kind) (length : Nat),
      m ∈ (kind.map fun k => (⟨k, length⟩ : Match)).toList ↔ m.length = length ∧ kind = some m.kind := by
    intro kind length
    rw [Option.mem_toList, Option.map_eq_some_iff]
    constructor
    · rintro ⟨k, known, rfl⟩
      exact ⟨rfl, known⟩
    · rintro ⟨rfl, known⟩
      exact ⟨m.kind, known, rfl⟩
  have inAutomaton : m ∈ automaton.toList ↔ t.runFrom s.initial 0 (c :: rest) = .ok (some m) := by
    rw [Option.mem_toList, run, Except.ok.injEq]
  have inLiterals : m ∈ literals.flatten ↔
      ∃ e ∈ t.literals.beginningWith i c, ∃ ms, t.literalMatches i (c :: rest) e = .ok ms ∧ m ∈ ms := by
    rw [List.mem_flatten]
    constructor
    · rintro ⟨ms, inside, member⟩
      obtain ⟨e, entered, same⟩ := mem_mapM all inside
      exact ⟨e, entered, ms, same, member⟩
    · rintro ⟨e, entered, ms, same, member⟩
      obtain ⟨others, inside, again⟩ := mapM_ok_of_mem all entered
      obtain rfl := Except.ok.inj (same.symm.trans again)
      exact ⟨ms, inside, member⟩
  rw [List.mem_append, List.mem_append, List.mem_append, ofKind, ofKind, inAutomaton, inLiterals, or_assoc, or_assoc]

/-- The tables have an entry for a text that it begins. -/
def HasEntry (t : Tokenizer) (i : Nat) (e : Candidate) (text : List Char) : Prop :=
  e.begins text = true ∧ ∃ c ∈ text.head?, e ∈ t.literals.beginningWith i c

/-- A match of the whole text of a literal that is neither by way of its own entry nor one of the automaton from the
beginning. -/
def Strays (t : Tokenizer) (i : Nat) (s : LexicalState) (l : Literal) (m : Match) : Prop :=
  m.length = l.length ∧ (l.length = 1 ∧ s.wildcard = some m.kind ∨
    ∃ c ∈ l.chars.head?, ∃ e ∈ t.literals.beginningWith i c, e ≠ s.literals.entryOf l ∧
      ∃ ms, t.literalMatches i l.chars e = .ok ms ∧ m ∈ ms)

/-- By way of an entry that is as long as the text there is one match, if it begins the text. -/
theorem literalMatches_whole {e : Candidate} (whole : e.chars.length = text.length) {ms : List Match}
    (ran : t.literalMatches i text e = .ok ms) : m ∈ ms ↔ e.begins text = true ∧ m = ⟨e.kind, text.length⟩ := by
  unfold literalMatches at ran
  split at ran
  · rename_i begins
    obtain ⟨longer, run, ran⟩ := Automaton.except_bind_ok ran
    obtain rfl := Except.ok.inj ran
    have none : longer = none := by
      refine Option.eq_none_iff_forall_ne_some.mpr fun beyond same => ?_
      rw [same] at run
      obtain ⟨low, high⟩ := runFrom_length run
      rw [List.length_drop] at high
      omega
    rw [none, whole, Option.toList_none, List.mem_singleton]
    exact (and_iff_right begins).symm
  · rename_i begins
    obtain rfl := Except.ok.inj ran
    exact iff_of_false List.not_mem_nil fun both => begins both.1

theorem offers_of_longestMatch {answer : Option Match} (present : t.states[i]? = some s)
    (returns : t.longestMatch i text = .ok answer) : ∃ found, t.offers i s text = .ok found ∧ Match.best found = answer := by
  unfold longestMatch at returns
  rw [present] at returns
  dsimp only at returns
  cases ran : t.offers i s text with
  | error e =>
    rw [ran] at returns
    cases returns
  | ok found =>
    rw [ran] at returns
    exact ⟨found, rfl, Except.ok.inj returns⟩

/-- A text that is offered whole is matched whole, as no later kind. -/
theorem best_of_offered (ran : t.offers i s text = .ok found) {k : Kind} (offered : ⟨k, text.length⟩ ∈ found) :
    ∃ earlier ≤ k, Match.best found = some ⟨earlier, text.length⟩ := by
  obtain ⟨⟨earlier, length⟩, best⟩ := Match.best_of_mem offered
  obtain ⟨member, beats⟩ := Match.best_beats best
  obtain rfl : length = text.length := Nat.le_antisymm (offers_length ran member) (Match.beats_length (beats _ offered))
  exact ⟨earlier, ((Match.beats_iff.mp (beats _ offered)).resolve_left (Nat.lt_irrefl _)).2, best⟩

/-- Where the automaton matches a whole text as a kind, the text is offered as this kind, or as that of any character if it
is one. -/
theorem capped_mem_offers (ran : t.offers i s text = .ok found) (unread : text ≠ []) {first : Kind}
    (run : t.runFrom s.initial 0 text = .ok (some ⟨first, text.length⟩)) :
    ⟨LiteralIndex.capped s.wildcard (text.length - 1) first, text.length⟩ ∈ found := by
  obtain ⟨c, rest, rfl⟩ := List.exists_cons_of_ne_nil unread
  have offered := ((mem_offers ran).2 _).mpr (.inr (.inr (.inl run)))
  unfold LiteralIndex.capped
  split
  · rename_i any one isWildcard
    have single : (c :: rest).length = 1 := Nat.le_antisymm (Nat.sub_eq_zero_iff_le.mp one) (Nat.succ_pos _)
    rcases Nat.le_total first any with earlier | later
    · rwa [Nat.min_eq_left earlier]
    · rw [Nat.min_eq_right later]
      exact ((mem_offers ran).2 _).mpr (.inr (.inl ⟨single, isWildcard⟩))
  · exact offered

/-- Where the automaton has no earlier match of a whole literal, the literal is matched as its entry says just when nothing
strays in. -/
theorem best_eq_entry_iff {l : Literal} (ran : t.offers i s l.chars = .ok found)
    (hasEntry : t.HasEntry i (s.literals.entryOf l) l.chars)
    (automaton : ∀ k, t.runFrom s.initial 0 l.chars = .ok (.some ⟨k, l.length⟩) → (s.literals.entryOf l).kind ≤ k) :
    Match.best found = .some ⟨(s.literals.entryOf l).kind, l.length⟩ ↔
      ∀ m, t.Strays i s l m → (s.literals.entryOf l).kind ≤ m.kind := by
  obtain ⟨begins, c, isHead, entered⟩ := hasEntry
  obtain ⟨rest, isChars⟩ : ∃ rest, l.chars = c :: rest := List.head?_eq_some_iff.mp isHead
  have positive : 0 < l.length := List.length_pos_iff.mpr (by rw [isChars]; exact List.cons_ne_nil c rest)
  have whole : (s.literals.entryOf l).chars.length = l.chars.length := LiteralIndex.entryOf_length
  obtain ⟨literals, offered⟩ := mem_offers (isChars ▸ ran)
  rw [← isChars] at literals offered
  rw [Match.best_eq_some_iff]
  constructor
  · rintro ⟨_, beats⟩ m ⟨length, strays⟩
    have member : m ∈ found := by
      rw [offered]
      rcases strays with ⟨single, isWildcard⟩ | ⟨d, isHeadToo, e, inTables, _, matched⟩
      · exact .inr (.inl ⟨length.trans single, isWildcard⟩)
      · obtain rfl := Option.some.inj (isHead.symm.trans isHeadToo)
        exact .inr (.inr (.inr ⟨e, inTables, matched⟩))
    exact ((Match.beats_iff.mp (beats m member)).resolve_left (Nat.not_lt.mpr (Nat.le_of_eq length.symm))).2
  · intro nothing
    obtain ⟨own, ranOwn⟩ := literals _ entered
    refine ⟨(offered _).mpr (.inr (.inr (.inr ⟨_, entered, own, ranOwn,
      (literalMatches_whole whole ranOwn).mpr ⟨begins, rfl⟩⟩))), fun m member => Match.beats_iff.mpr ?_⟩
    rcases Nat.lt_or_eq_of_le (offers_length ran member) with shorter | same
    · exact .inl shorter
    · refine .inr ⟨same.symm, ?_⟩
      rcases (offered m).mp member with ⟨zero, _⟩ | ⟨single, isWildcard⟩ | run | ⟨e, inTables, ms, matched, inside⟩
      · rw [zero] at same
        exact absurd same (Nat.ne_of_lt positive)
      · exact nothing m ⟨same, .inl ⟨same.symm.trans single, isWildcard⟩⟩
      · have length : (⟨m.kind, l.length⟩ : Match) = m := congrArg (Match.mk m.kind) same.symm
        exact automaton m.kind (by rw [length]; exact run)
      · by_cases isOwn : e = s.literals.entryOf l
        · subst isOwn
          rw [((literalMatches_whole whole matched).mp inside).2]
        · exact nothing m ⟨same, .inr ⟨c, isHead, e, inTables, isOwn, ms, matched, inside⟩⟩

end Tokenizer

namespace Assembly

variable {g : Grammar} {options : GenerationOptions} {i : Nat} {l m : Literal} {k : Kind} {text : List Char}

/-! ### Literals spelled alike -/

theorem string?_of_literal {r : DeclaredRule} (isLiteral : literalRule? options r = some l) :
    r.string? i options.ignoreCase =
      some ⟨i, String.ofList l.chars, l.ignoreCase || options.ignoreCase, l.location⟩ := by
  obtain ⟨loc, written, same, _, rfl, _⟩ := literalOf?_some (literalRule?_some isLiteral).2
  unfold DeclaredRule.string?
  rw [same]
  dsimp only
  rw [String.ofList_toList]
  rfl

/-- In a lexical state whose literals agree on case no two literals are spelled the same. -/
theorem literal_of_chars (passes : g.Passes options) (agree : (draft g options i).mixesCase = false)
    (first : l ∈ literalsOf g options i) (second : m ∈ literalsOf g options i) (same : l.chars = m.chars) : l = m := by
  obtain ⟨r, ruleR, isL⟩ := mem_literalsOf.mp first
  obtain ⟨s, ruleS, isM⟩ := mem_literalsOf.mp second
  rw [(draft_drafted g options i).mixesCase, List.any_eq_false] at agree
  have ofState : ∀ {r : DeclaredRule} {l : Literal}, r ∈ g.rulesIn i → literalRule? options r = some l →
      l.ignoreCase = g.firstIgnoresCase i := by
    intro r l declared isLiteral
    obtain ⟨_, _, _, _, rfl, _⟩ := literalOf?_some (literalRule?_some isLiteral).2
    have alike : g.firstIgnoresCase i = r.ignoreCase := by simpa [isLiteral] using agree r declared
    exact alike.symm
  have apart : ∀ {a b : DeclaredRule} {l m : Literal}, literalRule? options a = some l → literalRule? options b = some m →
      l.chars = m.chars → l.ignoreCase = m.ignoreCase → ¬ [a, b].Sublist (g.rulesIn i) := by
    intro a b l m isL isM same case_ order
    obtain ⟨before, member, mayFollow, _⟩ := passes.mayFollow order (string?_of_literal isL) (string?_of_literal isM)
    have rival : SeenString.rivals ⟨i, String.ofList m.chars, m.ignoreCase || options.ignoreCase, m.location⟩
        ⟨i, String.ofList l.chars, l.ignoreCase || options.ignoreCase, l.location⟩ = true :=
      SeenString.rivals_of_spelled rfl (congrArg String.ofList same)
    cases ignores : (m.ignoreCase || options.ignoreCase) with
    | false => exact (mayFollow.mindful ignores _ member rival).2 (congrArg String.ofList same)
    | true =>
      have ignoresToo : (l.ignoreCase || options.ignoreCase) = true := by rw [case_, ignores]
      exact (mayFollow.general ignores ⟨_, member, rival, ignoresToo⟩).2 _ member rival ignoresToo
        (congrArg String.ofList same)
  have case_ : l.ignoreCase = m.ignoreCase := (ofState ruleR isL).trans (ofState ruleS isM).symm
  by_cases here : r = s
  · exact Option.some.inj (isL.symm.trans (here ▸ isM))
  · rcases pair_sublist ruleR ruleS here with order | order
    · exact absurd order (apart isL isM same case_)
    · exact absurd order (apart isM isL same.symm case_.symm)

/-! ### What shadows a literal -/

/-- The literals of a lexical state have kinds that its automaton does not find. -/
theorem kindsFound_ne (passes : g.Passes options) (distinct : (g.regexes.map (·.kind)).Nodup)
    (member : l ∈ literalsOf g options i) (found : kindsFound g options i text (some k)) : k ≠ l.kind := by
  rintro rfl
  obtain ⟨rule, listed, _, kind⟩ := rule_of_kindsFound passes found
  obtain ⟨r, declared, goes⟩ := List.mem_filterMap.mp listed
  obtain ⟨_, noLiteral, _, rfl⟩ := automatonRule?_eq_some.mp goes
  obtain ⟨s, declaredToo, isLiteral⟩ := mem_literalsOf.mp member
  have literal := (literalRule?_some isLiteral).2
  obtain ⟨_, _, _, _, ofLiteral, _⟩ := literalOf?_some literal
  have kinds : r.regex.kind = s.regex.kind := by
    rw [ofLiteral] at kind
    exact kind.symm
  obtain rfl := Grammar.rule_of_kind distinct declared declaredToo kinds
  exact nomatch noLiteral.symm.trans literal

/-- The automaton matches a whole text as the kind reported for its last character. -/
theorem lastMatch_whole_iff (passes : g.Passes options) (unread : text ≠ []) :
    (namedGraph g options i).lastMatch 0 (closedGraph g options i).openingStates none text = some ⟨k, text.length⟩ ↔
      (namedGraph g options i).reportedAt text (text.length - 1) = some k := by
  have finds := automaton_finds (i := i) passes text
  have positive := List.length_pos_iff.mpr unread
  have best := ((sound_of_passes passes i).along passes
    (Graph.trace_getElem? (Nat.sub_lt positive Nat.one_pos))).1
  rw [Nat.sub_add_cancel positive, List.take_length] at best
  constructor
  · intro whole
    rw [whole] at finds
    have found := finds.best
    dsimp only at found
    rw [List.take_length] at found
    exact best.unique found
  · intro reported
    obtain ⟨first, whole, isBest⟩ := finds.whole unread (best.found k reported)
    obtain rfl := Option.some.inj (isBest.unique best ▸ reported)
    exact whole

/-- A literal is shadowed just when the automaton matches its whole text as an earlier kind. -/
theorem shadowingKind_iff (passes : g.Passes options) (distinct : (g.regexes.map (·.kind)).Nodup)
    (agree : (draft g options i).mixesCase = false) (member : l ∈ literalsOf g options i) :
    (literalIndex g options i).shadowingKind l = some k ↔ ∃ first,
      (namedGraph g options i).lastMatch 0 (closedGraph g options i).openingStates none l.chars = some ⟨first, l.length⟩ ∧
        first < l.kind ∧ k = LiteralIndex.capped (draft g options i).wildcard (l.length - 1) first := by
  by_cases follows : Follows g options i
  · obtain ⟨t, _, own, _, index⟩ := literalIndex_follows follows
    have alone : ∀ other ∈ t.literals, other.chars = l.chars → other = l := fun other inside same =>
      literal_of_chars passes agree (own ▸ inside) member same
    rw [index, LiteralIndex.shadowingKind_findResumptions (distinctKinds distinct own) (own ▸ member) (literal_ne_nil member)
      alone]
    refine exists_congr fun first => ?_
    rw [show l.length = l.chars.length from rfl, ← lastMatch_whole_iff passes (literal_ne_nil member)]
    refine and_congr_right fun whole => ?_
    have finds := automaton_finds (i := i) passes l.chars
    rw [whole] at finds
    have found := finds.best.found first rfl
    dsimp only at found
    rw [List.take_length] at found
    have other := kindsFound_ne passes distinct member found
    constructor
    · rintro ⟨noLater, capped, _⟩
      exact ⟨Nat.lt_of_le_of_ne noLater other, capped⟩
    · rintro ⟨earlier, rfl⟩
      exact ⟨Nat.le_of_lt earlier, rfl, Nat.lt_of_le_of_lt (LiteralIndex.capped_le _ _) earlier⟩
  · refine iff_of_false (fun shadow => ?_) fun ⟨first, whole, _⟩ => ?_
    · obtain ⟨steps, known, _⟩ := LiteralIndex.shadowingKind_some shadow
      rw [((@literalIndex_cases g options i).resolve_right fun both => follows both.1).1] at known
      simp at known
    · have unnamed : (namedGraph g options i).nameCount = 0 := by
        by_contra named
        exact follows ⟨agree, named⟩
      have stuck : (closedGraph g options i).openingStates = [] := by
        refine List.eq_nil_iff_forall_not_mem.mpr fun s member => ?_
        obtain ⟨n, known⟩ := Option.isSome_iff_exists.mp ((sound_of_passes passes i).labelled.opening s member)
        have small := (sound_of_passes passes i).labelled.name_lt known
        rw [unnamed] at small
        exact Nat.not_lt_zero n small
      obtain ⟨c, rest, isChars⟩ := List.exists_cons_of_ne_nil (literal_ne_nil member)
      rw [stuck, isChars] at whole
      cases whole

/-! ### What is reported -/

/-- What is reported of the literals of a lexical state. -/
def shadowReports (g : Grammar) (options : GenerationOptions) (i : Nat) : List Report :=
  (literalIndex g options i).byKind.flatMap fun l =>
    ((literalIndex g options i).shadowingKind l).toList.map (LiteralIndex.shadowedReport l)

theorem mem_shadowReports (member : l ∈ literalsOf g options i) (shadow : (literalIndex g options i).shadowingKind l = some k) :
    LiteralIndex.shadowedReport l k ∈ shadowReports g options i := by
  refine List.mem_flatMap.mpr ⟨l, ?_, List.mem_map_of_mem (Option.mem_toList.mpr shadow)⟩
  rw [LiteralIndex.mem_byKind, literalIndex_literals]
  exact member

theorem addRules_reports (rules : List DeclaredRule) (a : Assembly) (d : StateDraft) :
    a.reports ⊆ (rules.foldl (addRule g options i 0) (a, d)).1.reports :=
  List.foldlRecOn (motive := fun made : Assembly × StateDraft => a.reports ⊆ made.1.reports) _ _ (List.Subset.refl _)
    fun made before r _ => List.Subset.trans before (addRule_grows g options i made.1 made.2 r).1

theorem addState_reports (a : Assembly) (name : String) : (addState g options a name i).reports =
    (takenRules g options i a).reports ++ shadowReports g options i := by
  rw [addState_eq]
  unfold finishState
  rw [nameAll_closed]
  dsimp only
  rw [LiteralIndex.register_reports]
  rfl

/-- What is reported of the literals of each lexical state is among what the assembly reports. -/
theorem shadowReports_subset (inside : i < g.states.length) : shadowReports g options i ⊆ (ofGrammar g options).reports := by
  have grows : ∀ (a : Assembly) (s : String × Nat), a.reports ⊆ (addState g options a s.1 s.2).reports := by
    intro a s
    rw [addState_reports]
    exact List.Subset.trans (addRules_reports _ _ _) (List.subset_append_left _ _)
  have place : (g.states[i], i) ∈ g.states.zipIdx := by
    rw [List.mem_zipIdx_iff_getElem?]
    exact List.getElem?_eq_getElem inside
  obtain ⟨before, after, whole⟩ := List.append_of_mem place
  unfold ofGrammar
  rw [whole, List.foldl_append, List.foldl_cons]
  refine List.foldlRecOn (motive := fun a : Assembly => shadowReports g options i ⊆ a.reports) after _ ?_
    fun a kept s _ => List.Subset.trans kept (grows a s)
  rw [addState_reports]
  exact List.subset_append_right _ _

theorem literal_basic (passes : g.Passes options) (member : l ∈ literalsOf g options i) :
    ∀ c ∈ l.chars, c.toNat ≤ Text.lastCode := by
  obtain ⟨r, declared, isLiteral⟩ := mem_literalsOf.mp member
  obtain ⟨loc, written, same, _, rfl, _⟩ := literalOf?_some (literalRule?_some isLiteral).2
  have faultless := passes.sound.1 r.regex (Grammar.regex_of_rulesIn declared)
  have inRange : outOfRange? loc written.toList = none := by
    simpa [same, Regex.faults, Regex.subterms, Regex.nodeFaults] using faultless
  unfold outOfRange? at inRange
  rw [Option.map_eq_none_iff, List.find?_eq_none] at inRange
  exact fun c inside => Nat.le_of_not_lt fun wide => inRange c inside (decide_eq_true wide)

/-- A lexical state whose tables do not ignore case throughout has an entry for the text of each of its literals. -/
theorem begins_own (plain : options.ignoreCase = false) {c : Char} {rest : List Char} (isChars : l.chars = c :: rest) :
    ((literalIndex g options i).entryOf l).begins l.chars = true ∧
      c ∈ LiteralIndex.entryKeys ((literalIndex g options i).entryOf l) := by
  have begins : ∀ text, Text.beginsButForCase text text = true := by
    intro text
    induction text with
    | nil => rfl
    | cons c rest ih => simp [Text.beginsButForCase, Text.sameButForCase, ih]
  have chars : ((literalIndex g options i).entryOf l).chars = l.chars := by
    unfold LiteralIndex.entryOf
    rw [literalIndex_options]
    exact if_neg (by rw [show options.literalSettings.ignoreCase = options.ignoreCase from rfl, plain]; decide)
  refine ⟨?_, ?_⟩
  · unfold Candidate.begins
    rw [chars]
    split
    · exact begins l.chars
    · exact List.isPrefixOf_iff_prefix.mpr (List.prefix_refl _)
  · unfold LiteralIndex.entryKeys
    rw [chars, isChars]
    dsimp only
    split
    · exact Text.mem_caseForms.mpr (.inl rfl)
    · exact List.mem_singleton.mpr rfl

/-- In its place a lexical state has the entries of its literals under their first characters. -/
theorem Placed.mem_candidates {offset : Nat} {update : LiteralIndex.TableUpdate} {a : Assembly} {t : Tokenizer}
    (placed : Placed g options i offset update a) (tables : HasTables a t) {e : Candidate} {c : Char} :
    e ∈ t.literals.beginningWith i c ↔
      ∃ l ∈ literalsOf g options i, e = (literalIndex g options i).entryOf l ∧ c ∈ LiteralIndex.entryKeys e := by
  rw [tables.literals, placed.candidates, placed.moved.candidates]
  refine (LiteralIndex.mem_register (LiteralIndex.absent_empty i)).trans ?_
  rw [literalIndex_literals]
  rfl

end Assembly

/-- A literal of a lexical state whose literals agree on case is reported as shadowed just when the automaton by itself
matches its whole text as an earlier kind; the kind named is this one, or that of any character if the literal is one
character and this kind is earlier still. Then the whole text is matched as no later kind than the one named. Where the
tables have an entry for the text, it is matched whole and as the kind of this entry if and only if nothing that strays in
is earlier. -/
theorem literal_shadowed {g : Grammar} {options : GenerationOptions} {made : Generation}
    (generated : generate g options = .ok made) (distinct : (g.regexes.map (·.kind)).Nodup) {i : Nat} {s : LexicalState}
    (present : made.tokenizer.states[i]? = some s) (agree : s.mixesCase = false) {l : Literal}
    (member : l ∈ s.literals.literals) :
    let t := made.tokenizer
    let entry := s.literals.entryOf l
    (∀ offset graph tables, (s.literals.register i offset graph tables).reports = s.literals.byKind.flatMap fun l =>
      (s.literals.shadowingKind l).toList.map (LiteralIndex.shadowedReport l)) ∧
    (∀ k, s.literals.shadowingKind l = some k ↔ ∃ first,
      t.runFrom s.initial 0 l.chars = .ok (some ⟨first, l.length⟩) ∧ first < l.kind ∧
        k = LiteralIndex.capped s.wildcard (l.length - 1) first) ∧
    (∀ k, s.literals.shadowingKind l = some k → entry.kind = k ∧ k < l.kind ∧
      (∃ d ∈ made.diagnostics, LiteralIndex.shadowedReport l k = .always d) ∧
        ∃ earlier ≤ k, t.longestMatch i l.chars = .ok (some ⟨earlier, l.length⟩)) ∧
    (options.ignoreCase = false → t.HasEntry i entry l.chars) ∧
    (t.HasEntry i entry l.chars → (t.longestMatch i l.chars = .ok (some ⟨entry.kind, l.length⟩) ↔
      ∀ m, t.Strays i s l m → entry.kind ≤ m.kind)) := by
  have passes := (generate_ok generated).1
  obtain ⟨inside, offset, update, placed, hasTables, isState⟩ := Assembly.placed_of_present generated present
  have sound := Assembly.sound_of_passes passes i
  rw [isState.mixesCase] at agree
  have listed : l ∈ Assembly.literalsOf g options i := by
    rwa [isState.literals, LiteralIndex.literals_shiftStates, Assembly.literalIndex_literals] at member
  have some := Assembly.literal_ne_nil listed
  have basic := Assembly.literal_basic passes listed
  have run := placed.automaton sound hasTables isState basic
  obtain ⟨answer, returns⟩ := Assembly.longestMatch_returns generated i basic
  obtain ⟨found, ran, best⟩ := Tokenizer.offers_of_longestMatch present returns
  have shadowing : ∀ k, s.literals.shadowingKind l = .some k ↔ ∃ first,
      made.tokenizer.runFrom s.initial 0 l.chars = .ok (.some ⟨first, l.length⟩) ∧ first < l.kind ∧
        k = LiteralIndex.capped s.wildcard (l.length - 1) first := by
    intro k
    rw [run, isState.wildcard, isState.literals, LiteralIndex.shadowingKind_shiftStates]
    simp only [Except.ok.injEq]
    exact Assembly.shadowingKind_iff passes distinct agree listed
  intro t entry
  have kind : entry.kind = (s.literals.shadowingKind l).getD l.kind := rfl
  refine ⟨LiteralIndex.register_reports _ i, shadowing, fun k shadow => ?_, fun plain => ?_, fun hasEntry => ?_⟩
  · obtain ⟨first, whole, earlier, rfl⟩ := (shadowing k).mp shadow
    refine ⟨by rw [kind, shadow]; rfl, Nat.lt_of_le_of_lt (LiteralIndex.capped_le _ _) earlier, ⟨_, ?_, rfl⟩, ?_⟩
    · refine mem_diagnostics generated (List.mem_append_left _ (List.mem_append_left _ ?_)) rfl
      rw [isState.literals] at shadow
      exact Assembly.shadowReports_subset inside (Assembly.mem_shadowReports listed shadow)
    · obtain ⟨first, noLater, matched⟩ := Tokenizer.best_of_offered ran (Tokenizer.capped_mem_offers ran some whole)
      exact ⟨first, noLater, returns.trans (congrArg Except.ok (best.symm.trans matched))⟩
  · obtain ⟨c, rest, isChars⟩ := List.exists_cons_of_ne_nil some
    obtain ⟨begins, key⟩ := Assembly.begins_own (g := g) (i := i) plain isChars
    have isEntry : entry = (Assembly.literalIndex g options i).entryOf l := by
      rw [← LiteralIndex.entryOf_shiftStates _ offset, ← isState.literals]
    refine ⟨by rw [isEntry]; exact begins, c, by rw [isChars]; rfl, (placed.mem_candidates hasTables).mpr ?_⟩
    exact ⟨l, listed, isEntry, by rw [isEntry]; exact key⟩
  · have matched : t.longestMatch i l.chars = .ok (Match.best found) := by rw [best]; exact returns
    rw [matched, Except.ok.injEq]
    refine Tokenizer.best_eq_entry_iff ran hasEntry fun k whole => ?_
    change entry.kind ≤ k
    rw [kind]
    cases shadow : s.literals.shadowingKind l with
    | none =>
      by_contra later
      have reported := (shadowing _).mpr ⟨k, whole, Nat.lt_of_not_le later, rfl⟩
      exact nomatch shadow.symm.trans reported
    | some first =>
      obtain ⟨other, wholeToo, _, rfl⟩ := (shadowing first).mp shadow
      rw [wholeToo] at whole
      obtain rfl := congrArg Match.kind (Option.some.inj (Except.ok.inj whole))
      exact LiteralIndex.capped_le _ _

/-- A choice, keywords for two of its alternatives, and a keyword that goes on from the first as the choice does from the
second. -/
def goesAstray : Grammar where
  states := ["DEFAULT"]
  productions := [⟨.token, some ["DEFAULT"], false,
    [⟨.regex ⟨1, none, false, .choice .unknown
        [.literal .unknown "a", .literal .unknown "b", .literal .unknown "bd"]⟩, none, none, .unknown⟩,
     ⟨.regex ⟨2, none, false, .literal .unknown "a"⟩, none, none, .unknown⟩,
     ⟨.regex ⟨3, none, false, .literal .unknown "b"⟩, none, none, .unknown⟩,
     ⟨.regex ⟨4, none, false, .literal .unknown "ad"⟩, none, none, .unknown⟩], .unknown⟩]

/-- The first keyword is reported as shadowed, and its text is matched as the choice. The last one is not reported, but what
is matched by way of the first strays into its text. -/
theorem goesAstray_shadowed : ∃ made s, generate goesAstray {} = .ok made ∧ made.tokenizer.states[0]? = some s ∧
    s.literals.shadowingKind ⟨['a'], 2, false, .unknown⟩ = some 1 ∧
    (∃ earlier ≤ 1, made.tokenizer.longestMatch 0 ['a'] = .ok (some ⟨earlier, 1⟩)) ∧
    s.literals.shadowingKind ⟨['a', 'd'], 4, false, .unknown⟩ = none ∧
    made.tokenizer.longestMatch 0 ['a', 'd'] = .ok (some ⟨1, 2⟩) ∧
    ∃ m, made.tokenizer.Strays 0 s ⟨['a', 'd'], 4, false, .unknown⟩ m ∧ m.kind < 4 := by
  have passes : goesAstray.Passes {} := by
    unfold Grammar.Passes goesAstray
    cbv
  obtain ⟨made, generated⟩ := generate_of_passes (by decide : goesAstray.states ≠ []) passes
  have inside : 0 < goesAstray.states.length := by decide
  obtain ⟨_, _, s, _, present, isState⟩ := Assembly.tokenizer_placed (i := 0) passes inside
  rw [← (generate_ok generated).2] at present
  have agree : s.mixesCase = false := by
    rw [isState.mixesCase, (Assembly.draft_drafted goesAstray _ 0).mixesCase]
    rfl
  have literals : s.literals.literals = [⟨['a'], 2, false, .unknown⟩, ⟨['b'], 3, false, .unknown⟩,
      ⟨['a', 'd'], 4, false, .unknown⟩] := by
    rw [isState.literals, LiteralIndex.literals_shiftStates, Assembly.literalIndex_literals,
      (Assembly.draft_drafted goesAstray _ 0).literals]
    rfl
  have shadows : (s.literals.shadowingKind ⟨['a'], 2, false, .unknown⟩,
      s.literals.shadowingKind ⟨['a', 'd'], 4, false, .unknown⟩) = (some 1, none) := by
    rw [isState.literals, LiteralIndex.shadowingKind_shiftStates, LiteralIndex.shadowingKind_shiftStates]
    unfold goesAstray
    cbv
  obtain ⟨shadowed, free⟩ := Prod.mk.inj shadows
  have matched : made.tokenizer.longestMatch 0 ['a', 'd'] = .ok (some ⟨1, 2⟩) := by
    have own : Assembly.ownMatch goesAstray {} 0 ['a', 'd'] = some ⟨1, 2⟩ := by
      unfold goesAstray
      cbv
    rw [Assembly.longestMatch_eq_ownMatch generated inside (by simp [Text.lastCode]), own]
  have first := literal_shadowed generated (by decide) present agree (l := ⟨['a'], 2, false, .unknown⟩)
    (by rw [literals]; simp)
  have last := literal_shadowed generated (by decide) present agree (l := ⟨['a', 'd'], 4, false, .unknown⟩)
    (by rw [literals]; simp)
  refine ⟨made, s, generated, present, shadowed, (first.2.2.1 1 shadowed).2.2.2, free, matched, ?_⟩
  by_contra nothing
  have kind : (s.literals.entryOf ⟨['a', 'd'], 4, false, .unknown⟩).kind = 4 := by
    show (s.literals.shadowingKind _).getD 4 = 4
    rw [free]
    rfl
  have whole := (last.2.2.2.2 (last.2.2.2.1 rfl)).mpr fun m strays => by
    rw [kind]
    exact Nat.le_of_not_lt fun earlier => nothing ⟨m, strays, earlier⟩
  rw [kind] at whole
  exact absurd (matched.symm.trans whole) (by simp)

end TokenTables
