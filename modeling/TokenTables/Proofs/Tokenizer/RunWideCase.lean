import TokenTables.Proofs.Grammar.IgnoringCase
import TokenTables.Proofs.Literal.Recased
import TokenTables.Proofs.Tokenizer.LiteralPaths

/-!
Case ignored throughout a run. To a lexical state this is the same as case ignored in each of its productions, except
that the tables keep its literals in lower case, and that productions may still disagree on case.
-/

namespace TokenTables

open Automaton (Graph)
open LiteralIndex (Recased)

/-! ### Characters in lower case -/

/-- Lower case leaves alone which characters stand for this one. -/
structure LowersAlike (w c : Char) : Prop where
  same : Text.sameButForCase c (Text.toLower w) = Text.sameButForCase c w
  key : c ∈ Text.caseForms (Text.toLower w) ↔ c ∈ Text.caseForms w

/-- A character is lowered alike if its lower case has the same case forms and it is one of them. -/
theorem lowersAlike_of_forms {w : Char} (lower : Text.toLower (Text.toLower w) = Text.toLower w)
    (upper : Text.toUpper (Text.toLower w) = Text.toUpper w) (form : w = Text.toLower w ∨ w = Text.toUpper w) (c : Char) :
    LowersAlike w c where
  same := by
    rw [Bool.eq_iff_iff]
    unfold Text.sameButForCase
    simp only [Bool.or_eq_true, beq_iff_eq, lower, upper]
    constructor
    · rintro ((rfl | low) | up)
      · exact .inl (.inr lower)
      · exact .inl (.inr low)
      · exact .inr up
    · rintro ((rfl | low) | up)
      · exact .inl (.inr rfl)
      · exact .inl (.inr low)
      · exact .inr up
  key := by
    rw [Text.mem_caseForms, Text.mem_caseForms, lower, upper]
    constructor
    · rintro (low | low | up)
      · exact .inr (.inl low)
      · exact .inr (.inl low)
      · exact .inr (.inr up)
    · rintro (rfl | low | up)
      · exact form.elim .inl fun up => .inr (.inr up)
      · exact .inl low
      · exact .inr (.inr up)

theorem lowersAlike_of_ascii {w : Char} (small : w.toNat < 0x80) (c : Char) : LowersAlike w c := by
  have all : ∀ code < 0x80, Text.toLower (Text.toLower (Char.ofNat code)) = Text.toLower (Char.ofNat code) ∧
      Text.toUpper (Text.toLower (Char.ofNat code)) = Text.toUpper (Char.ofNat code) ∧
      (Char.ofNat code = Text.toLower (Char.ofNat code) ∨ Char.ofNat code = Text.toUpper (Char.ofNat code)) := by
    decide +kernel
  have here := all w.toNat small
  rw [Char.ofNat_toNat] at here
  exact lowersAlike_of_forms here.1 here.2.1 here.2.2 c

theorem beginsButForCase_lowered {written text : List Char} (alike : ∀ w ∈ written, ∀ c ∈ text, LowersAlike w c) :
    Text.beginsButForCase text (written.map Text.toLower) = Text.beginsButForCase text written := by
  induction written generalizing text with
  | nil => rfl
  | cons w more ih =>
    cases text with
    | nil => rfl
    | cons c rest =>
      obtain ⟨first, later⟩ := List.forall_mem_cons.mp alike
      have after := ih fun w member d inRest => later w member d (List.mem_cons_of_mem c inRest)
      simp only [List.map_cons, Text.beginsButForCase, (first c List.mem_cons_self).same, after]

theorem Grammar.sameButForCase_ignoringCase (g : Grammar) : g.SameButForCase g.ignoringCase where
  states := rfl
  rules := g.ignoringCase_rules
  declared i := by
    rw [g.ignoringCase_rulesIn, List.map_map]
    rfl

namespace Assembly

variable {g : Grammar} {options : GenerationOptions} {i : Nat} {text : List Char}

/-! ### Drafts -/

/-- The same draft, with case ignored by the literals. -/
structure Redrafted (d e : StateDraft) : Prop where
  graph : e.graph = d.graph
  wildcard : e.wildcard = d.wildcard
  index : Recased d.index e.index

theorem literalOf?_ignoringCase (r : DeclaredRule) : literalOf? options.byProduction r.ignoringCase =
    (literalOf? options.ignoringCase r).map Literal.ignoringCase := by
  unfold literalOf?
  have regex : r.ignoringCase.regex = r.regex := rfl
  rw [regex]
  cases r.regex.regex.literalText? with
  | none => rfl
  | some text =>
    show (if text.toList.isEmpty || options.literalsInAutomaton then none else _) =
      Option.map _ (if text.toList.isEmpty || options.literalsInAutomaton then none else _)
    split <;> rfl

theorem Redrafted.rule {d e : StateDraft} (redrafted : Redrafted d e) (r : DeclaredRule) :
    Redrafted (draftRule g options.ignoringCase i d r)
      (draftRule g.ignoringCase options.byProduction i e r.ignoringCase) := by
  have regex : r.ignoringCase.regex = r.regex := rfl
  unfold draftRule
  rw [regex, literalOf?_ignoringCase, redrafted.graph, redrafted.wildcard, g.ignoringCase_definitions]
  split
  · exact redrafted
  · cases literalOf? options.ignoringCase r with
    | some l => exact ⟨rfl, rfl, redrafted.index.insert l⟩
    | none =>
      dsimp only [Option.map_none]
      split
      · exact ⟨rfl, rfl, redrafted.index⟩
      · refine ⟨?_, rfl, redrafted.index⟩
        dsimp only
        rw [show (r.ignoreCase || options.ignoringCase.ignoreCase) = true from Bool.or_true _]
        rfl

theorem draft_ignoringCase (g : Grammar) (options : GenerationOptions) (i : Nat) :
    Redrafted (draft g options.ignoringCase i) (draft g.ignoringCase options.byProduction i) := by
  have all : ∀ (rules : List DeclaredRule) (d e : StateDraft), Redrafted d e →
      Redrafted (rules.foldl (draftRule g options.ignoringCase i) d)
        ((rules.map DeclaredRule.ignoringCase).foldl (draftRule g.ignoringCase options.byProduction i) e) := by
    intro rules
    induction rules with
    | nil => exact fun d e redrafted => redrafted
    | cons r rest ih => exact fun d e redrafted => ih _ _ (redrafted.rule r)
  unfold draft
  rw [g.ignoringCase_rulesIn]
  exact all _ _ _ ⟨rfl, rfl, rfl, rfl, rfl, rfl⟩

/-- Productions that all ignore case agree on it. -/
theorem mixesCase_ignoringCase : (draft g.ignoringCase options i).mixesCase = false := by
  rw [(draft_drafted g.ignoringCase options i).mixesCase, List.any_eq_false]
  intro r member
  obtain ⟨p, inState, _, _, _, sameCase⟩ := Grammar.mem_rulesIn.mp member
  rw [g.ignoringCase_productionsOf] at inState
  have first : g.ignoringCase.firstIgnoresCase i = true := by
    unfold Grammar.firstIgnoresCase
    rw [g.ignoringCase_productionsOf]
    cases productions : g.productionsOf i with
    | nil =>
      rw [productions] at inState
      cases inState
    | cons first rest => rfl
  obtain ⟨_, _, rfl⟩ := List.mem_map.mp inState
  rw [first, sameCase]
  simp [Production.ignoringCase]

/-! ### Literals -/

theorem namedGraph_ignoringCase : namedGraph g.ignoringCase options.byProduction i = namedGraph g options.ignoringCase i := by
  unfold namedGraph closedGraph
  rw [(draft_ignoringCase g options i).graph]
  rfl

theorem offersApart_ignoringCase :
    offersApart g.ignoringCase options.byProduction i text = offersApart g options.ignoringCase i text := by
  have closed : closedGraph g.ignoringCase options.byProduction i = closedGraph g options.ignoringCase i := by
    unfold closedGraph
    rw [(draft_ignoringCase g options i).graph]
    rfl
  unfold offersApart emptyKind
  rw [namedGraph_ignoringCase, (draft_ignoringCase g options i).wildcard, closed]

/-- The literals of a lexical state are all in one mode: its productions agree on case, or there is no automaton to go on
in. -/
def OneMode (g : Grammar) (options : GenerationOptions) (i : Nat) : Prop :=
  (draft g options i).mixesCase = false ∨ (namedGraph g options i).nameCount = 0

theorem OneMode.recased (mode : OneMode g options.ignoringCase i) :
    Recased (literalIndex g options.ignoringCase i) (literalIndex g.ignoringCase options.byProduction i) := by
  obtain ⟨_, wildcard, index⟩ := draft_ignoringCase g options i
  have marked : Recased
      ({ (draft g options.ignoringCase i).index with
        mixesCase := (draft g options.ignoringCase i).mixesCase } : LiteralIndex).markExtended
      ({ (draft g.ignoringCase options.byProduction i).index with
        mixesCase := (draft g.ignoringCase options.byProduction i).mixesCase } : LiteralIndex).markExtended :=
    ⟨index.literals, index.maxLength, index.progress, index.resumptions⟩
  unfold literalIndex
  dsimp only
  rw [namedGraph_ignoringCase, wildcard, mixesCase_ignoringCase]
  rw [mixesCase_ignoringCase] at marked
  rcases mode with agreed | none
  · rw [agreed] at marked ⊢
    split
    · exact marked.findResumptions
    · exact marked
  · rw [none]
    exact marked

theorem literalIndex_mixesCase : (literalIndex g options i).mixesCase = (draft g options i).mixesCase := by
  obtain ⟨_, _, _, _, same⟩ := @literalIndex_eq g options i
  rw [same]

theorem OneMode.tables (mode : OneMode g options.ignoringCase i) :
    (ownTables g.ignoringCase options.byProduction i).graph = (ownTables g options.ignoringCase i).graph ∧
      (ownTables g.ignoringCase options.byProduction i).tables.startStates =
        (ownTables g options.ignoringCase i).tables.startStates := by
  unfold ownTables
  rw [namedGraph_ignoringCase]
  refine mode.recased.register ?_ 0 {}
  rw [literalIndex_mixesCase, literalIndex_mixesCase, mixesCase_ignoringCase]
  exact mode.imp_left Eq.symm

theorem literalsOf_ignoringCase : literalsOf g.ignoringCase options.byProduction i =
    (literalsOf g options.ignoringCase i).map Literal.ignoringCase :=
  (draft_ignoringCase g options i).index.literals

variable {l : Literal}

/-- The entry of a literal is kept as it is written, or in lower case. -/
theorem OneMode.entryOf (mode : OneMode g options.ignoringCase i) :
    (literalIndex g options.ignoringCase i).entryOf l =
      { (literalIndex g.ignoringCase options.byProduction i).entryOf l.ignoringCase with
        chars := l.chars.map Text.toLower } ∧
    (literalIndex g.ignoringCase options.byProduction i).entryOf l.ignoringCase =
      { chars := l.chars, kind := ((literalIndex g options.ignoringCase i).entryOf l).kind, ignoreCase := true } := by
  have kind := mode.recased.entryOf_kind l
  unfold LiteralIndex.entryOf at kind ⊢
  rw [literalIndex_options, literalIndex_options]
  dsimp only at kind ⊢
  rw [kind]
  exact ⟨rfl, rfl⟩

/-- In one mode a literal matches the same, however it is kept, if its characters are lowered alike. -/
theorem OneMode.ownLiteralMatches_eq (mode : OneMode g options.ignoringCase i)
    (alike : ∀ w ∈ l.chars, ∀ c ∈ text, LowersAlike w c) :
    ownLiteralMatches g.ignoringCase options.byProduction i text
        ((literalIndex g.ignoringCase options.byProduction i).entryOf l.ignoringCase) =
      ownLiteralMatches g options.ignoringCase i text ((literalIndex g options.ignoringCase i).entryOf l) := by
  obtain ⟨lowered, written⟩ := @OneMode.entryOf g options i l mode
  obtain ⟨graph, starts⟩ := mode.tables
  rw [lowered, written]
  unfold ownLiteralMatches Candidate.begins
  dsimp only
  rw [graph, starts, beginsButForCase_lowered alike, List.length_map]
  rfl

theorem OneMode.entryKeys_iff (mode : OneMode g options.ignoringCase i) {c : Char}
    (alike : ∀ w ∈ l.chars, LowersAlike w c) :
    c ∈ LiteralIndex.entryKeys ((literalIndex g.ignoringCase options.byProduction i).entryOf l.ignoringCase) ↔
      c ∈ LiteralIndex.entryKeys ((literalIndex g options.ignoringCase i).entryOf l) := by
  obtain ⟨lowered, written⟩ := @OneMode.entryOf g options i l mode
  rw [lowered, written]
  unfold LiteralIndex.entryKeys
  cases isChars : l.chars with
  | nil => rfl
  | cons w more => exact (alike w (by rw [isChars]; exact List.mem_cons_self)).key.symm

theorem OneMode.ownMatch_eq (mode : OneMode g options.ignoringCase i)
    (alike : ∀ l ∈ literalsOf g options.ignoringCase i, ∀ w ∈ l.chars, ∀ c ∈ text, LowersAlike w c) :
    ownMatch g.ignoringCase options.byProduction i text = ownMatch g options.ignoringCase i text := by
  cases text with
  | nil =>
    unfold ownMatch emptyKind
    rw [namedGraph_ignoringCase]
  | cons c rest =>
    rw [ownMatch_cons, ownMatch_cons, offersApart_ignoringCase]
    refine Match.best_congr fun m => ?_
    rw [List.mem_append, List.mem_append, mem_offersByLiterals, mem_offersByLiterals, literalsOf_ignoringCase]
    refine or_congr_right ⟨?_, ?_⟩
    · rintro ⟨_, listed, key, inside⟩
      obtain ⟨l, member, rfl⟩ := List.mem_map.mp listed
      rw [mode.entryKeys_iff fun w written => alike l member w written c List.mem_cons_self] at key
      rw [mode.ownLiteralMatches_eq (alike l member)] at inside
      exact ⟨l, member, key, inside⟩
    · rintro ⟨l, member, key, inside⟩
      refine ⟨_, List.mem_map_of_mem member, ?_, ?_⟩
      · rwa [mode.entryKeys_iff fun w written => alike l member w written c List.mem_cons_self]
      · rwa [mode.ownLiteralMatches_eq (alike l member)]

/-- Where literals are built into the automaton nothing is left to disagree on. -/
theorem ownMatch_ignoringCase_withoutTables : ownMatch g.ignoringCase options.byProduction.withoutTables i text =
    ownMatch g options.ignoringCase.withoutTables i text := by
  have byProduction : options.byProduction.withoutTables = options.withoutTables.byProduction := rfl
  have runWide : options.ignoringCase.withoutTables = options.withoutTables.ignoringCase := rfl
  have none : literalsOf g options.withoutTables.ignoringCase i = [] := by
    rw [← runWide]
    exact literalsOf_withoutTables
  rw [byProduction, runWide]
  refine OneMode.ownMatch_eq (.inl ?_) fun l member => ?_
  · rw [(draft_drafted g _ i).mixesCase, List.any_eq_false]
    intro r declared isLiteral
    obtain ⟨l, known⟩ := Option.isSome_iff_exists.mp (Bool.and_eq_true_iff.mp isLiteral).1
    have member : l ∈ literalsOf g options.withoutTables.ignoringCase i := mem_literalsOf.mpr ⟨r, declared, known⟩
    rw [none] at member
    cases member
  · rw [none] at member
    cases member

/-- A text for which it does not matter to a lexical state where it is said that case is ignored. -/
inductive FitsRunWide (g : Grammar) (options : GenerationOptions) (i : Nat) (text : List Char) : Prop
  /-- The literals are in one mode, and their characters are lowered alike. -/
  | lowered (mode : OneMode g options.ignoringCase i)
      (alike : ∀ l ∈ literalsOf g options.ignoringCase i, ∀ w ∈ l.chars, ∀ c ∈ text, LowersAlike w c)
  /-- Either way the literals match as they would in the automaton. -/
  | spelled (runWide : LiteralsFit g options.ignoringCase i text)
      (byProduction : LiteralsFit g.ignoringCase options.byProduction i text)

theorem FitsRunWide.suffix (fits : FitsRunWide g options i text) {rest : List Char} (suffix : rest <:+ text) :
    FitsRunWide g options i rest := by
  cases fits with
  | lowered mode alike =>
    exact .lowered mode fun l member w written c inside => alike l member w written c (suffix.mem inside)
  | spelled runWide byProduction => exact .spelled (runWide.suffix suffix) (byProduction.suffix suffix)

/-- Of literals in one mode that are all ASCII it never matters. -/
theorem fitsRunWide_of_ascii (mode : OneMode g options.ignoringCase i)
    (ascii : ∀ l ∈ literalsOf g options.ignoringCase i, ∀ w ∈ l.chars, w.toNat < 0x80) (text : List Char) :
    FitsRunWide g options i text :=
  .lowered mode fun l member w written c _ => lowersAlike_of_ascii (ascii l member w written) c

theorem ownMatch_ignoringCase (passes : g.Passes options.ignoringCase) (kinds : (g.regexes.map (·.kind)).Nodup)
    (fits : FitsRunWide g options i text) :
    ownMatch g.ignoringCase options.byProduction i text = ownMatch g options.ignoringCase i text := by
  cases fits with
  | lowered mode alike => exact mode.ownMatch_eq alike
  | spelled runWide byProduction =>
    have kindsToo : (g.ignoringCase.regexes.map (·.kind)).Nodup := by rwa [g.ignoringCase_regexes]
    have passesToo := Grammar.passes_ignoringCase.mpr passes
    have same := @ownMatch_ignoringCase_withoutTables g options i text
    cases inAutomaton : options.literalsInAutomaton with
    | true =>
      have byProduction : options.byProduction.withoutTables = options.byProduction := by
        unfold GenerationOptions.withoutTables GenerationOptions.byProduction
        rw [inAutomaton]
      have runWide : options.ignoringCase.withoutTables = options.ignoringCase := by
        unfold GenerationOptions.withoutTables GenerationOptions.ignoringCase
        rw [inAutomaton]
      rwa [byProduction, runWide] at same
    | false =>
      have one := ownMatch_withTables passes kinds runWide
      have other := ownMatch_withTables passesToo kindsToo byProduction
      have byProduction : options.byProduction.withTables = options.byProduction := by
        unfold GenerationOptions.withTables GenerationOptions.byProduction
        rw [inAutomaton]
      have runWide : options.ignoringCase.withTables = options.ignoringCase := by
        unfold GenerationOptions.withTables GenerationOptions.ignoringCase
        rw [inAutomaton]
      rw [runWide] at one
      rw [byProduction] at other
      rw [one, other, same]

end Assembly

/-- Ignoring case throughout a run gives a tokenizer just when ignoring it in every production does, and the two give
the same tokens of a text that fits. -/
theorem generate_ignoringCase {g : Grammar} (kinds : (g.regexes.map (·.kind)).Nodup) (options : GenerationOptions) :
    ((∃ made, generate g options.ignoringCase = .ok made) ↔
      ∃ remade, generate g.ignoringCase options.byProduction = .ok remade) ∧
    ∀ made remade, generate g options.ignoringCase = .ok made → generate g.ignoringCase options.byProduction = .ok remade →
      ∀ text : List Char, (∀ c ∈ text, c.toNat ≤ Text.lastCode) →
        (∀ i < g.states.length, Assembly.FitsRunWide g options i text) →
          remade.tokenizer.tokenize text = made.tokenizer.tokenize text := by
  refine ⟨⟨?_, ?_⟩, fun made remade generated regenerated text basic fits => ?_⟩
  · rintro ⟨made, generated⟩
    have some : g.states ≠ [] := states_ne_nil generated
    exact generate_of_passes some (Grammar.passes_ignoringCase.mpr (generate_ok generated).1)
  · rintro ⟨remade, regenerated⟩
    have some : g.ignoringCase.states ≠ [] := states_ne_nil regenerated
    exact generate_of_passes some (Grammar.passes_ignoringCase.mp (generate_ok regenerated).1)
  · exact tokenize_congr generated regenerated g.sameButForCase_ignoringCase basic fun i inside rest suffix =>
      Assembly.ownMatch_ignoringCase (generate_ok generated).1 kinds ((fits i inside).suffix suffix)

theorem keywordsFirst_ignoringCase : ∃ made remade,
    generate keywordsFirst ({} : GenerationOptions).ignoringCase = .ok made ∧
    generate keywordsFirst.ignoringCase ({} : GenerationOptions).byProduction = .ok remade ∧
    remade.tokenizer.tokenize ['I', 'f', 'i', 'N'] = made.tokenizer.tokenize ['I', 'f', 'i', 'N'] := by
  have passes : keywordsFirst.Passes ({} : GenerationOptions).ignoringCase := by
    unfold Grammar.Passes
    cbv
  have kinds : (keywordsFirst.regexes.map (·.kind)).Nodup := by decide
  obtain ⟨made, generated⟩ := generate_of_passes (by decide : keywordsFirst.states ≠ []) passes
  obtain ⟨alike, agree⟩ := generate_ignoringCase kinds {}
  obtain ⟨remade, regenerated⟩ := alike.mp ⟨made, generated⟩
  refine ⟨made, remade, generated, regenerated, ?_⟩
  refine agree made remade generated regenerated _ (by simp [Text.lastCode]) fun i inside => ?_
  obtain rfl : i = 0 := Nat.lt_one_iff.mp inside
  refine Assembly.fitsRunWide_of_ascii (.inl ?_) ?_ _
  · rw [(Assembly.draft_drafted keywordsFirst _ 0).mixesCase]
    rfl
  · have literals : Assembly.literalsOf keywordsFirst ({} : GenerationOptions).ignoringCase 0 =
        [⟨['i', 'f'], 1, false, .unknown⟩, ⟨['i', 'n'], 2, false, .unknown⟩] := by
      unfold Assembly.literalsOf
      rw [(Assembly.draft_drafted keywordsFirst _ 0).literals]
      rfl
    rw [literals]
    simp

end TokenTables
