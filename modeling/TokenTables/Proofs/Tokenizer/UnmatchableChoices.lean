import TokenTables.Proofs.Regex.Language
import TokenTables.Proofs.Regex.Subterms
import TokenTables.Proofs.Tokenizer.Destinations
import TokenTables.Proofs.Tokenizer.ShadowedLiterals

/-!
Alternatives reported as unmatchable. Such an alternative refers to an earlier rule of the same lexical state. What it
matches under the settings of the choice is never matched as the choice where the earlier rule matches it too, by its own
settings, and the lexical state heeds this rule.
-/

namespace TokenTables


/-! ### Alternatives -/

namespace Regex

variable {defs : Definitions} {ignoreCase : Bool} {text : List Char}

theorem mem_directAlternativesOfAll {a : Regex} {rs : List Regex} :
    a ∈ directAlternativesOfAll rs ↔ ∃ r ∈ rs, a ∈ r.directAlternatives := by
  induction rs with
  | nil => simp [directAlternativesOfAll]
  | cons r rest ih => simp [directAlternativesOfAll, ih]

/-- What a direct alternative matches the whole matches. -/
theorem matches_of_directAlternative {a : Regex} (matched : Matches defs ignoreCase a text) :
    ∀ r : Regex, a ∈ r.directAlternatives → Matches defs ignoreCase r text
  | .choice loc alternatives, member => by
    obtain ⟨p, inside, below⟩ := mem_directAlternativesOfAll.mp (by simpa only [directAlternatives] using member)
    have shorter : p.subterms.length < (choice loc alternatives).subterms.length := (partOf_choice inside).shorter
    exact .choice inside (matches_of_directAlternative matched p below)
  | .literal _ _, member | .charClass _ _, member | .sequence _ _, member | .repetition _ _ _ _, member
  | .reference _ _, member => by
    obtain rfl := List.mem_singleton.mp (by simpa only [directAlternatives] using member)
    exact matched
termination_by r => r.subterms.length

end Regex

namespace Grammar

variable {g : Grammar}

/-- A label stands for the expression of the rule that has it. -/
theorem lookup_definitions (label : String) : g.definitions.lookup label = (g.labelled.lookup label).map (·.regex) := by
  have all : ∀ named : List (String × TokenDef),
      (named.map fun p => (p.1, p.2.regex)).lookup label = (named.lookup label).map (·.regex) := by
    intro named
    induction named with
    | nil => rfl
    | cons first rest ih =>
      rw [List.map_cons, List.lookup_cons, List.lookup_cons, ih]
      cases label == first.1 <;> rfl
  exact all g.labelled

end Grammar

/-! ### What the assembly collects -/

namespace KindTables

variable {g : Grammar} {k : KindTables}

/-- Kinds are at home in lexical states that have rules of theirs. -/
def AtHome (g : Grammar) (k : KindTables) : Prop :=
  ∀ (kind : Nat) (s : KindSlot), k.slots[kind]? = some s → ∀ n ∈ s.homes, ∃ r ∈ g.rulesIn n, r.regex.kind = kind

theorem AtHome.alter (atHome : k.AtHome g) (kind : Kind) {change : KindSlot → KindSlot}
    (keeps : ∀ s, ∀ n ∈ (change s).homes, n ∈ s.homes ∨ ∃ r ∈ g.rulesIn n, r.regex.kind = kind) :
    (k.alter kind change).AtHome g := by
  intro place s here n home
  unfold KindTables.alter at here
  dsimp only at here
  rw [Array.getElem?_modify] at here
  split at here
  · rename_i same
    obtain rfl := same
    obtain ⟨before, there, rfl⟩ := Option.map_eq_some_iff.mp here
    exact (keeps before n home).elim (atHome _ before there n) id
  · exact atHome place s here n home

theorem AtHome.takeDeclared (atHome : k.AtHome g) {state : Nat} {r : DeclaredRule} (member : r ∈ g.rulesIn state) :
    (k.takeDeclared g state r).AtHome g := by
  have declared : (k.declare state r.ignoreCase r.regex).AtHome g := atHome.alter _ fun s n home => by
    rcases List.mem_append.mp home with before | here
    · exact .inl before
    · obtain rfl := List.mem_singleton.mp here
      exact .inr ⟨r, member, rfl⟩
  unfold KindTables.takeDeclared
  dsimp only
  split
  · exact declared
  · have noted : ((k.declare state r.ignoreCase r.regex).noteRule g state r.disposition r.rule r.regex.kind).AtHome g :=
      declared.alter _ fun _ _ home => .inl home
    unfold KindTables.takeRule KindTables.AtHome
    rwa [sortKind_slots]

theorem atHome_endOfInput (g : Grammar) : ((forGrammar g).endOfInput g).AtHome g := by
  have begun : (forGrammar g).AtHome g := by
    intro kind s here n home
    obtain rfl := Array.eq_of_mem_replicate (Array.mem_of_getElem? here)
    cases home
  refine List.foldlRecOn (motive := fun k : KindTables => k.AtHome g) _ _ begun fun k before r _ => ?_
  dsimp only
  split
  · exact before.alter _ fun _ _ home => .inl home
  · exact before

end KindTables

namespace Assembly

variable {g : Grammar} {options : GenerationOptions} {i : Nat} {a : Assembly}

theorem addState_atHome (atHome : a.kinds.AtHome g) (name : String) : (addState g options a name i).kinds.AtHome g := by
  obtain ⟨features, kinds⟩ := addState_kinds g options a name i
  have taken : ((g.rulesIn i).foldl (KindTables.takeDeclared g i) a.kinds).AtHome g :=
    List.foldlRecOn (motive := fun k : KindTables => k.AtHome g) _ _ atHome fun k before r member =>
      before.takeDeclared member
  rw [kinds]
  exact taken

theorem ofGrammar_atHome (g : Grammar) (options : GenerationOptions) : (ofGrammar g options).kinds.AtHome g :=
  List.foldlRecOn (motive := fun a : Assembly => a.kinds.AtHome g) _ _ (KindTables.atHome_endOfInput g)
    fun _ before p _ => addState_atHome before p.1

/-- The choices collected are rules of lexical states. -/
def ChoicesDeclared (g : Grammar) (a : Assembly) : Prop :=
  ∀ p ∈ a.choices, p.1 < g.states.length ∧ ∃ r ∈ g.rulesIn p.1, r.regex = p.2

theorem addState_choices (declared : ChoicesDeclared g a) (inside : i < g.states.length) (name : String) :
    ChoicesDeclared g (addState g options a name i) := by
  have taken : ChoicesDeclared g (takenRules g options i a) := by
    refine List.foldlRecOn (motive := fun made : Assembly × StateDraft => ChoicesDeclared g made.1) _ _ declared
      fun made before r member p collected => ?_
    rcases List.mem_append.mp ((addRule_grows g options i made.1 made.2 r).2 collected) with old | new
    · exact before p old
    · obtain rfl := List.mem_singleton.mp new
      exact ⟨inside, r, member, rfl⟩
  rw [addState_eq]
  unfold finishState
  rw [nameAll_closed]
  exact taken

theorem ofGrammar_choices (g : Grammar) (options : GenerationOptions) : ChoicesDeclared g (ofGrammar g options) := by
  refine List.foldlRecOn (motive := fun a : Assembly => ChoicesDeclared g a) _ _ (fun _ none => (nomatch none))
    fun _ before p member => addState_choices before ?_ p.1
  have place := List.mem_zipIdx_iff_getElem?.mp member
  exact (List.getElem?_eq_some_iff.mp place).1

theorem winner?_some {choice other : TokenDef} {alternative : Regex}
    (wins : winner? g a i choice alternative = some other) : ∃ loc label, alternative = .reference loc label ∧
      g.labelled.lookup label = some other ∧ other.isPrivate = false ∧ other.kind < choice.kind ∧
        i ∈ (a.kinds.slot other.kind).homes := by
  unfold winner? at wins
  obtain ⟨label, isReference, wins⟩ := Option.bind_eq_some_iff.mp wins
  obtain ⟨found, known, wins⟩ := Option.bind_eq_some_iff.mp wins
  rw [Option.ite_none_left_eq_some] at wins
  obtain ⟨holds, same⟩ := wins
  obtain rfl := Option.some.inj same
  simp only [Bool.or_eq_true, not_or, Bool.not_eq_true, decide_eq_true_eq, Nat.not_le, Bool.not_eq_false',
    List.contains_iff_mem] at holds
  obtain ⟨⟨⟨isPublic, _⟩, earlier⟩, home⟩ := holds
  cases alternative with
  | reference loc name =>
    obtain rfl := Option.some.inj isReference
    exact ⟨loc, name, rfl, known, isPublic, earlier, home⟩
  | _ => cases isReference

/-- The rule that always wins over a choice is an earlier one of the same lexical state. -/
theorem winner?_declared (distinct : (g.regexes.map (·.kind)).Nodup) {choice other : TokenDef} {alternative : Regex}
    (wins : winner? g (ofGrammar g options) i choice alternative = some other) :
    ∃ own ∈ g.rulesIn i, own.regex = other := by
  obtain ⟨_, label, _, known, _, _, home⟩ := winner?_some wins
  have declared : other ∈ g.regexes := Grammar.mem_labelled (mem_of_lookup known)
  have slot : (ofGrammar g options).kinds.slot other.kind = ((ofGrammar g options).kinds.slots[other.kind]?).getD {} :=
    Array.getD_eq_getD_getElem?
  cases here : (ofGrammar g options).kinds.slots[other.kind]? with
  | none =>
    rw [slot, here] at home
    cases home
  | some s =>
    rw [slot, here] at home
    obtain ⟨own, member, kind⟩ := ofGrammar_atHome g options other.kind s here i home
    exact ⟨own, member, List.inj_on_of_nodup_map distinct (Grammar.regex_of_rulesIn member) declared kind⟩

/-- What a choice collected reports for each of its alternatives is in the diagnostics. -/
theorem unmatchable_reported {made : Generation} (generated : generate g options = .ok made) {choice other : TokenDef}
    {alternative : Regex} (collected : (i, choice) ∈ (ofGrammar g options).choices)
    (inChoice : alternative ∈ choice.regex.directAlternatives)
    (wins : winner? g (ofGrammar g options) i choice alternative = some other) :
    ∃ d ∈ made.diagnostics, unmatchableReport choice alternative other = .always d := by
  refine ⟨_, mem_diagnostics generated (List.mem_append_left _ (List.mem_append_right _ ?_)) rfl, rfl⟩
  exact List.mem_flatMap.mpr ⟨_, collected, List.mem_filterMap.mpr ⟨alternative, inChoice, by rw [wins]; rfl⟩⟩

/-! ### Rules that are heeded -/

/-- A lexical state heeds a rule in a text: a literal that the tables keep they fold as the rule does, and of a rule of the
automaton the kind, or an earlier one, is found where the graph built comes to it. -/
structure Heeds (g : Grammar) (options : GenerationOptions) (i : Nat) (r : DeclaredRule) (text : List Char) : Prop where
  folds : ∀ l, literalOf? options r = some l → (literalIndex g options i).FoldsIn l text
  arrives : ∀ rule, automatonRule? options r = some rule → ∀ f, (draft g options i).graph.Path 0 text f →
    ((draft g options i).graph.state f).kind = some r.regex.kind → ∃ k ≤ r.regex.kind, kindsFound g options i text (some k)

section Offers

variable {offset : Nat} {update : LiteralIndex.TableUpdate} {t : Tokenizer} {s : LexicalState} {c : Char} {rest : List Char}
  {found : List Match}

/-- A text spelled as a literal, which the tables fold alike, is offered whole and as no later kind. -/
theorem Placed.offers_literal (placed : Placed g options i offset update a) (tables : HasTables a t)
    (ran : t.offers i s (c :: rest) = .ok found) {l : Literal} (member : l ∈ literalsOf g options i)
    (folds : (literalIndex g options i).FoldsIn l (c :: rest))
    (spelled : Regex.SpelledAs ((literalIndex g options i).ignores l) (c :: rest) l.chars) :
    ∃ k ≤ l.kind, ⟨k, (c :: rest).length⟩ ∈ found := by
  have length : (c :: rest).length = l.length := spelled.length
  have whole : (c :: rest).take l.length = c :: rest := by rw [← length, List.take_length]
  rw [← whole] at spelled
  obtain ⟨literals, offered⟩ := Tokenizer.mem_offers ran
  have entered : (literalIndex g options i).entryOf l ∈ t.literals.beginningWith i c :=
    (placed.mem_candidates tables).mpr ⟨l, member, rfl, LiteralIndex.mem_entryKeys folds (literal_ne_nil member) spelled⟩
  obtain ⟨ms, ranOwn⟩ := literals _ entered
  refine ⟨((literalIndex g options i).entryOf l).kind, LiteralIndex.entryOf_kind_le _ l,
    (offered _).mpr (.inr (.inr (.inr ⟨_, entered, ms, ranOwn, ?_⟩)))⟩
  exact (Tokenizer.literalMatches_whole (LiteralIndex.entryOf_length.trans length.symm) ranOwn).mpr
    ⟨(LiteralIndex.begins_iff_spelled folds).mpr spelled, rfl⟩

/-- A text that the automaton finds a kind for is offered whole and as no later kind. -/
theorem Placed.offers_found (placed : Placed g options i offset update a) (passes : g.Passes options)
    (tables : HasTables a t) (isState : StateOf g options i offset update s) (ran : t.offers i s (c :: rest) = .ok found)
    (basic : ∀ d ∈ c :: rest, d.toNat ≤ Text.lastCode) {k : Kind} (finding : kindsFound g options i (c :: rest) (some k)) :
    ∃ first ≤ k, ⟨first, (c :: rest).length⟩ ∈ found := by
  obtain ⟨first, whole, isBest⟩ := (automaton_finds passes (c :: rest)).whole (List.cons_ne_nil c rest) finding
  obtain ⟨_, earlier, isFirst⟩ := isBest.first _ finding k rfl
  obtain rfl := Option.some.inj isFirst
  refine ⟨first, earlier, ((Tokenizer.mem_offers ran).2 _).mpr (.inr (.inr (.inl ?_)))⟩
  rw [placed.automaton (sound_of_passes passes i) tables isState basic, whole]

/-- One character is offered as no later kind than that of a rule for any character. -/
theorem StateOf.offers_any (isState : StateOf g options i offset update s) (ran : t.offers i s (c :: rest) = .ok found)
    {r : DeclaredRule} (declared : r ∈ g.rulesIn i) (isWildcard : IsWildcard r) {ignoreCase : Bool}
    (matched : Regex.Matches g.definitions ignoreCase r.regex.regex (c :: rest)) :
    ∃ k ≤ r.regex.kind, ⟨k, (c :: rest).length⟩ ∈ found := by
  have single : (c :: rest).length = 1 := by
    cases regex : r.regex.regex with
    | charClass loc cls =>
      rw [regex] at matched
      obtain ⟨d, single, _⟩ := Regex.mem_language_charClass.mp matched
      rw [single]
      rfl
    | _ =>
      have anyChar := isWildcard.2
      rw [regex] at anyChar
      cases anyChar
  obtain ⟨any, noLater, known⟩ := (draft_drafted g options i).wildcard.first _ ⟨r, declared, isWildcard, rfl⟩ _ rfl
  rw [← isState.wildcard] at known
  exact ⟨any, noLater, ((Tokenizer.mem_offers ran).2 _).mpr (.inr (.inl ⟨single, known⟩))⟩

end Offers

end Assembly

/-- A text that a rule matches and that is heeded for it is matched whole, as the rule's kind or an earlier one. -/
theorem matched_no_later {g : Grammar} {options : GenerationOptions} {made : Generation}
    (generated : generate g options = .ok made) {i : Nat} {s : LexicalState}
    (present : made.tokenizer.states[i]? = some s) {r : DeclaredRule} (declared : r ∈ g.rulesIn i)
    (isPublic : r.regex.isPrivate = false) {text : List Char} (unread : text ≠ [])
    (basic : ∀ c ∈ text, c.toNat ≤ Text.lastCode)
    (matched : Regex.Matches g.definitions (r.ignoreCase || options.ignoreCase) r.regex.regex text)
    (heeds : Assembly.Heeds g options i r text) :
    ∃ k ≤ r.regex.kind, made.tokenizer.longestMatch i text = .ok (some ⟨k, text.length⟩) := by
  have passes := (generate_ok generated).1
  obtain ⟨_, offset, update, placed, hasTables, isState⟩ := Assembly.placed_of_present generated present
  obtain ⟨answer, returns⟩ := Assembly.longestMatch_returns generated i basic
  obtain ⟨found, ran, best⟩ := Tokenizer.offers_of_longestMatch present returns
  obtain ⟨c, rest, rfl⟩ := List.exists_cons_of_ne_nil unread
  suffices offered : ∃ k ≤ r.regex.kind, ⟨k, (c :: rest).length⟩ ∈ found by
    obtain ⟨k, noLater, member⟩ := offered
    obtain ⟨earlier, before, isBest⟩ := Tokenizer.best_of_offered ran member
    exact ⟨earlier, Nat.le_trans before noLater, by rw [returns, ← best, isBest]⟩
  cases goes : Assembly.literalOf? options r with
  | some l =>
    have listed : l ∈ Assembly.literalsOf g options i :=
      Assembly.mem_literalsOf.mpr ⟨r, declared, by rw [Assembly.literalRule?, if_neg (by simp [isPublic]), goes]⟩
    have folds := heeds.folds _ goes
    obtain ⟨loc, written, same, _, rfl, _⟩ := Assembly.literalOf?_some goes
    refine placed.offers_literal hasTables ran listed folds ?_
    unfold LiteralIndex.ignores
    rw [same, Bool.or_comm] at matched
    rw [Assembly.literalIndex_options]
    exact Regex.mem_language_literal.mp matched
  | none =>
    cases anyChar : r.regex.regex.isAnyChar with
    | true => exact isState.offers_any ran declared ⟨isPublic, anyChar⟩ matched
    | false =>
      have rule := Assembly.automatonRule?_eq_some.mpr ⟨isPublic, goes, anyChar, rfl⟩
      obtain ⟨f, path, kind⟩ := (Tokenizer.path_iff_matched (Assembly.draft_graph passes i)).mpr
        ⟨_, List.mem_filterMap.mpr ⟨r, declared, rule⟩, matched, rfl⟩
      obtain ⟨k, before, finding⟩ := heeds.arrives _ rule f path kind
      obtain ⟨first, earlier, offered⟩ := placed.offers_found passes hasTables isState ran basic finding
      exact ⟨first, Nat.le_trans earlier before, offered⟩

/-- An alternative of a choice for which an earlier token always wins is reported, and whatever it matches in the choice,
by the settings of the choice, the choice matches. Where the earlier token's own rule matches it too, as it does when both
rules have the same settings, and is heeded in it, the text is matched as a kind no later than that of the token and never as
the choice. -/
theorem unmatchable_choice {g : Grammar} {options : GenerationOptions} {made : Generation}
    (generated : generate g options = .ok made) (distinct : (g.regexes.map (·.kind)).Nodup) {i : Nat}
    {choice other : TokenDef} (collected : (i, choice) ∈ (Assembly.ofGrammar g options).choices) {alternative : Regex}
    (inChoice : alternative ∈ choice.regex.directAlternatives)
    (wins : Assembly.winner? g (Assembly.ofGrammar g options) i choice alternative = some other) :
    (∃ d ∈ made.diagnostics, Assembly.unmatchableReport choice alternative other = .always d) ∧
    other.kind < choice.kind ∧
    ∃ own ∈ g.rulesIn i, own.regex = other ∧ ∃ whole ∈ g.rulesIn i, whole.regex = choice ∧
      ∀ text ≠ [], (∀ c ∈ text, c.toNat ≤ Text.lastCode) →
        Regex.Matches g.definitions (whole.ignoreCase || options.ignoreCase) alternative text →
          Regex.Matches g.definitions (whole.ignoreCase || options.ignoreCase) choice.regex text ∧
          (whole.ignoreCase = own.ignoreCase ∨
              Regex.Matches g.definitions (own.ignoreCase || options.ignoreCase) other.regex text →
            Assembly.Heeds g options i own text →
              ∃ k ≤ other.kind, made.tokenizer.longestMatch i text = .ok (some ⟨k, text.length⟩)) := by
  obtain ⟨_, label, rfl, known, isPublic, earlier, _⟩ := Assembly.winner?_some wins
  obtain ⟨own, declared, isOwn⟩ := Assembly.winner?_declared distinct wins
  obtain ⟨inside, whole, inState, isWhole⟩ := Assembly.ofGrammar_choices g options _ collected
  obtain ⟨_, _, s, _, present, _⟩ := Assembly.tokenizer_placed (generate_ok generated).1 inside
  rw [← (generate_ok generated).2] at present
  refine ⟨Assembly.unmatchable_reported generated collected inChoice wins, earlier, own, declared, isOwn, whole, inState,
    isWhole, fun text unread basic asAlternative =>
      ⟨Regex.matches_of_directAlternative asAlternative _ inChoice, fun sameOrMatched heeds => ?_⟩⟩
  have matched : Regex.Matches g.definitions (own.ignoreCase || options.ignoreCase) own.regex.regex text := by
    rw [isOwn]
    rcases sameOrMatched with same | matched
    · have found : g.definitions.lookup label = some other.regex := by
        rw [Grammar.lookup_definitions, known]
        rfl
      rw [same] at asAlternative
      rw [← Regex.mem_language, ← Regex.language_reference found]
      exact Regex.mem_language.mpr asAlternative
    · exact matched
  rw [← isOwn] at isPublic ⊢
  exact matched_no_later generated present declared isPublic unread basic matched heeds

def smallLetter : TokenDef := ⟨1, some "A", false, .literal .unknown "a"⟩

def letterOrOther : TokenDef := ⟨2, some "B", false, .choice .unknown [.reference .unknown "A", .literal .unknown "b"]⟩

/-- A small letter, and a choice between it and another letter for which case does not matter. -/
def letterInChoice : Grammar where
  states := ["DEFAULT"]
  productions := [
    ⟨.token, some ["DEFAULT"], false, [⟨.regex smallLetter, none, none, .unknown⟩], .unknown⟩,
    ⟨.token, some ["DEFAULT"], true, [⟨.regex letterOrOther, none, none, .unknown⟩], .unknown⟩]

/-- The letter is reported as an alternative that is never matched as the choice. A small letter is not, but a capital one
is: the alternative matches it by the settings of the choice, and the letter's own rule does not. -/
theorem letterInChoice_unmatchable : ∃ made, generate letterInChoice {} = .ok made ∧
    (∃ d ∈ made.diagnostics,
      Assembly.unmatchableReport letterOrOther (.reference .unknown "A") smallLetter = .always d) ∧
    (∃ k ≤ 1, made.tokenizer.longestMatch 0 ['a'] = .ok (some ⟨k, 1⟩)) ∧
    Regex.Matches letterInChoice.definitions true (.reference .unknown "A") ['A'] ∧
    made.tokenizer.longestMatch 0 ['A'] = .ok (some ⟨2, 1⟩) := by
  have passes : letterInChoice.Passes {} := by
    unfold Grammar.Passes letterInChoice
    cbv
  obtain ⟨made, generated⟩ := generate_of_passes (by decide : letterInChoice.states ≠ []) passes
  have collected : (Assembly.ofGrammar letterInChoice {}).choices = [(0, letterOrOther)] := by
    unfold letterInChoice
    cbv
  have wins : Assembly.winner? letterInChoice (Assembly.ofGrammar letterInChoice {}) 0 letterOrOther
      (.reference .unknown "A") = some smallLetter := by
    unfold letterInChoice
    cbv
  have capital : Assembly.ownMatch letterInChoice {} 0 ['A'] = some ⟨2, 1⟩ := by
    unfold letterInChoice
    cbv
  have known : letterInChoice.definitions.lookup "A" = some (.literal .unknown "a") := rfl
  have minding : ∀ own ∈ letterInChoice.rulesIn 0, own.regex.kind = 1 → own.ignoreCase = false := by decide
  obtain ⟨reported, _, own, declared, isOwn, whole, _, _, matching⟩ :=
    unmatchable_choice generated (by decide) (by rw [collected]; exact List.mem_singleton_self _)
      (by simp [letterOrOther, Regex.directAlternatives, Regex.directAlternativesOfAll]) wins
  have small : ∀ ignoreCase : Bool, Regex.Matches letterInChoice.definitions ignoreCase (.literal .unknown "a") ['a'] := by
    intro ignoreCase
    refine .literal ?_
    cases ignoreCase with
    | false => exact ⟨rfl, trivial⟩
    | true => exact ⟨by decide, trivial⟩
  obtain ⟨_, neverAsChoice⟩ := matching ['a'] (by simp) (by simp [Text.lastCode]) (.reference known (small _))
  refine ⟨made, generated, reported, neverAsChoice (.inr (small _)) ⟨fun l goes ignores => ?_, fun rule goes => ?_⟩,
    .reference known (.literal ?_), ?_⟩
  · obtain ⟨_, _, _, _, rfl, _⟩ := Assembly.literalOf?_some goes
    rw [LiteralIndex.ignores, Assembly.literalIndex_options, minding own declared (by rw [isOwn]; rfl)] at ignores
    cases ignores
  · have literal := (Assembly.automatonRule?_eq_some.mp goes).2.1
    unfold Assembly.literalOf? at literal
    rw [isOwn] at literal
    cases literal
  · exact ⟨by decide, trivial⟩
  · rw [Assembly.longestMatch_eq_ownMatch generated (by decide) (by simp [Text.lastCode]), capital]

end TokenTables
