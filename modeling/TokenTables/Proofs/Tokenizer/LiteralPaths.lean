import TokenTables.Proofs.Automaton.ClosingSpares
import TokenTables.Proofs.Tokenizer.KindsAlike
import TokenTables.Proofs.Tokenizer.LiteralMatches
import TokenTables.Proofs.Tokenizer.LongestMatch

/-!
Two ways to match literals. A lexical state keeps its literals in tables, and goes on in the automaton after them, or it
builds them into the automaton. It matches the same either way where the tables and the automaton fold case alike and a
name to go on from belongs to one literal.
-/

namespace TokenTables

open Automaton (Graph)
open Automaton.Graph (KindFound)
open Match (Represent)
open Regex (SpelledAs)
open Tokenizer (Findings Finds)

/-- A text spelled as another enters the same states if the characters it is spelled with are accepted alike. -/
theorem Automaton.Graph.entered_spelled {base : Graph} {starts : Set Nat} {ignoreCase : Bool} {text written : List Char}
    (even : ignoreCase = true → ∀ w ∈ written, ∀ c ∈ text, c ∈ Text.caseForms w → ∀ s : Nat,
      (base.state s).accepts c = (base.state s).accepts w) (spelled : SpelledAs ignoreCase text written) :
    base.entered starts text = base.entered starts written := by
  cases ignoreCase with
  | false => rw [Regex.spelledAs_false.mp spelled]
  | true =>
    induction text generalizing written starts with
    | nil =>
      cases written with
      | nil => rfl
      | cons w more => exact spelled.elim
    | cons c rest ih =>
      cases written with
      | nil => exact spelled.elim
      | cons w more =>
        have same : base.entering starts c = base.entering starts w := by
          have accepts : ∀ s : Nat, (base.state s).moves.acceptsCode c.toNat = (base.state s).moves.acceptsCode w.toNat :=
            even rfl w List.mem_cons_self c List.mem_cons_self spelled.1
          unfold entering Gets
          simp only [accepts]
        unfold entered
        rw [same]
        exact ih (fun _ v inMore d inRest => even rfl v (List.mem_cons_of_mem w inMore) d (List.mem_cons_of_mem c inRest))
          spelled.2

namespace GenerationOptions

/-- Literals go into tables. -/
def withTables (o : GenerationOptions) : GenerationOptions := { o with literalsInAutomaton := false }

/-- Literals go into the automaton. -/
def withoutTables (o : GenerationOptions) : GenerationOptions := { o with literalsInAutomaton := true }

end GenerationOptions

namespace Assembly

variable {g : Grammar} {options : GenerationOptions} {i : Nat}

/-! ### Drafts -/

/-- A rule for a text with characters in it. -/
def isText (r : Automaton.Rule) : Bool := r.regex.literalText?.any fun text => !text.toList.isEmpty

theorem literalOf?_withoutTables (r : DeclaredRule) : literalOf? options.withoutTables r = none := by
  unfold literalOf?
  cases r.regex.regex.literalText? with
  | none => rfl
  | some text =>
    show (if text.toList.isEmpty || true then none else _) = none
    rw [Bool.or_true, if_pos rfl]

theorem literalOf?_withTables (r : DeclaredRule) : (literalOf? options.withTables r).isSome =
    r.regex.regex.literalText?.any fun text => !text.toList.isEmpty := by
  unfold literalOf?
  cases r.regex.regex.literalText? with
  | none => rfl
  | some text =>
    show (if text.toList.isEmpty || false then none else _).isSome = !text.toList.isEmpty
    rw [Bool.or_false]
    cases text.toList.isEmpty <;> rfl

theorem automatonRule?_withTables (r : DeclaredRule) : automatonRule? options.withTables r =
    (automatonRule? options.withoutTables r).filter fun rule => !isText rule := by
  unfold automatonRule?
  rw [literalOf?_withTables, literalOf?_withoutTables]
  cases isPrivate : r.regex.isPrivate with
  | true => rfl
  | false =>
    cases anyChar : r.regex.regex.isAnyChar with
    | true => simp
    | false =>
      have same : isText ⟨r.regex.kind, r.regex.regex, r.ignoreCase || options.withoutTables.ignoreCase⟩ =
        r.regex.regex.literalText?.any fun text => !text.toList.isEmpty := rfl
      cases text : r.regex.regex.literalText?.any fun text => !text.toList.isEmpty with
      | true => simp [Option.filter, same, text]
      | false => simp [Option.filter, same, text]; rfl

/-- The tables take the literals out of the automaton and nothing else. -/
theorem automatonRules_withTables : automatonRules g options.withTables i =
    (automatonRules g options.withoutTables i).filter fun rule => !isText rule := by
  unfold automatonRules
  rw [List.filter_filterMap]
  exact List.filterMap_congr fun r _ => automatonRule?_withTables r

/-- The rules taken out match what the literals match. -/
theorem exists_isText_iff {k : Kind} {text : List Char} :
    (∃ rule ∈ (automatonRules g options.withoutTables i).filter isText, rule.kind = k ∧ text ∈ rule.texts g.definitions) ↔
      ∃ l ∈ literalsOf g options.withTables i, l.kind = k ∧ SpelledAs (options.ignoreCase || l.ignoreCase) text l.chars := by
  constructor
  · rintro ⟨rule, member, rfl, matched⟩
    obtain ⟨inAutomaton, isText⟩ := List.mem_filter.mp member
    obtain ⟨r, declared, goes⟩ := List.mem_filterMap.mp inAutomaton
    obtain ⟨isPublic, _, _, rfl⟩ := automatonRule?_eq_some.mp goes
    obtain ⟨l, isLiteral⟩ := Option.isSome_iff_exists.mp ((@literalOf?_withTables options r).trans isText)
    obtain ⟨loc, written, same, _, rfl, _⟩ := literalOf?_some isLiteral
    refine ⟨⟨written.toList, r.regex.kind, r.ignoreCase, r.regex.location⟩, mem_literalsOf.mpr ⟨r, declared, ?_⟩, rfl, ?_⟩
    · rw [literalRule?, isPublic]
      exact isLiteral
    · unfold Automaton.Rule.texts at matched
      dsimp only at matched ⊢
      rw [same, Regex.mem_language_literal, Bool.or_comm] at matched
      exact matched
  · rintro ⟨l, member, rfl, spelled⟩
    obtain ⟨r, declared, isLiteral⟩ := mem_literalsOf.mp member
    obtain ⟨isPublic, isLiteral⟩ := literalRule?_some isLiteral
    obtain ⟨loc, written, same, _, rfl, _⟩ := literalOf?_some isLiteral
    have goes : automatonRule? options.withoutTables r =
        some ⟨r.regex.kind, r.regex.regex, r.ignoreCase || options.ignoreCase⟩ :=
      automatonRule?_eq_some.mpr ⟨isPublic, literalOf?_withoutTables r, by rw [same]; rfl, rfl⟩
    refine ⟨_, List.mem_filter.mpr ⟨List.mem_filterMap.mpr ⟨r, declared, goes⟩, ?_⟩, rfl, ?_⟩
    · exact (@literalOf?_withTables options r).symm.trans (by rw [isLiteral]; rfl)
    · unfold Automaton.Rule.texts
      dsimp only at spelled ⊢
      rw [same, Regex.mem_language_literal, Bool.or_comm]
      exact spelled

theorem passes_withTables : g.Passes options.withTables ↔ g.Passes options := Grammar.passes_congr rfl

theorem passes_withoutTables : g.Passes options.withoutTables ↔ g.Passes options := Grammar.passes_congr rfl

/-- The graph with the literals is the one without them and a chain for each of them. -/
theorem draft_embedded (passes : g.Passes options) (i : Nat) : ∃ place few pieces spare,
    Automaton.Graph.Embedded place (draft g options.withTables i).graph (draft g options.withoutTables i).graph few pieces
      spare ∧ ∀ k text, (∃ p ∈ spare, p.kind = k ∧ text ∈ p.texts) ↔
        ∃ l ∈ literalsOf g options.withTables i, l.kind = k ∧
          SpelledAs (options.ignoreCase || l.ignoreCase) text l.chars := by
  have texts : ∀ r ∈ automatonRules g options.withoutTables i, isText r = true → r.IsText := by
    rintro ⟨kind, regex, ignoreCase⟩ _ isText
    cases regex with
    | literal loc written => exact ⟨loc, written, rfl⟩
    | _ => cases isText
  have few := draft_graph (passes_withTables.mpr passes) i
  rw [automatonRules_withTables] at few
  obtain ⟨place, rulesFew, pieces, spare, embedded, same⟩ :=
    Automaton.Graph.ofRules_embedded texts (draft_graph (passes_withoutTables.mpr passes) i) few
  refine ⟨place, rulesFew, pieces, spare, embedded, fun k text => ?_⟩
  rw [← exists_isText_iff]
  have each : ∀ kind texts, (∃ p ∈ spare, (p.kind, p.texts) = (kind, texts)) ↔
      ∃ r ∈ (automatonRules g options.withoutTables i).filter isText, (r.kind, r.texts g.definitions) = (kind, texts) := by
    intro kind texts
    rw [← List.mem_map, ← List.mem_map, same]
  constructor
  · rintro ⟨p, member, rfl, matched⟩
    obtain ⟨r, listed, equal⟩ := (each p.kind p.texts).mp ⟨p, member, rfl⟩
    obtain ⟨kind, texts⟩ := Prod.mk.inj equal
    exact ⟨r, listed, kind, texts ▸ matched⟩
  · rintro ⟨r, listed, rfl, matched⟩
    obtain ⟨p, member, equal⟩ := (each r.kind (r.texts g.definitions)).mpr ⟨r, listed, rfl⟩
    obtain ⟨kind, texts⟩ := Prod.mk.inj equal
    exact ⟨p, member, kind, texts ▸ matched⟩

/-- The automaton with the literals finds what the one without them finds, and the literals. -/
theorem kindsFound_withoutTables (passes : g.Passes options) {text : List Char} (unread : text ≠ []) {k : Kind} :
    kindsFound g options.withoutTables i text (some k) ↔ kindsFound g options.withTables i text (some k) ∨
      ∃ l ∈ literalsOf g options.withTables i, l.kind = k ∧
        SpelledAs (options.ignoreCase || l.ignoreCase) text l.chars := by
  obtain ⟨place, few, pieces, spare, embedded, spelled⟩ := draft_embedded passes i
  rw [← spelled]
  exact embedded.kindFound_iff _ _ unread

/-- Literals have no part in what the empty text matches. -/
theorem emptyKind_withoutTables (passes : g.Passes options) :
    emptyKind g options.withoutTables i = emptyKind g options.withTables i := by
  obtain ⟨place, few, pieces, spare, embedded, spelled⟩ := draft_embedded passes i
  have nonempty : ∀ p ∈ spare, [] ∉ p.texts := by
    intro p member empty
    obtain ⟨l, literal, _, none⟩ := (spelled p.kind []).mp ⟨p, member, rfl, empty⟩
    exact literal_ne_nil literal (List.length_eq_zero_iff.mp none.length.symm)
  unfold emptyKind
  rw [openingKind_eq (passes_withTables.mpr passes), openingKind_eq (passes_withoutTables.mpr passes)]
  exact congrArg _ (embedded.completeAll_openingKind nonempty _ _)

theorem wildcard_withoutTables :
    (draft g options.withoutTables i).wildcard = (draft g options.withTables i).wildcard :=
  (draft_drafted g options.withoutTables i).wildcard.unique (draft_drafted g options.withTables i).wildcard

/-! ### Offers -/

theorem represent_map (found : Option Kind) (length : Nat) :
    Represent (found.map fun k => (⟨k, length⟩ : Match)).toList fun m => m.length = length ∧ found = some m.kind where
  sound m member := by
    obtain ⟨k, known, rfl⟩ := Option.map_eq_some_iff.mp (Option.mem_toList.mp member)
    exact ⟨rfl, known⟩
  beaten m holds := by
    obtain ⟨rfl, known⟩ := holds
    exact ⟨m, by rw [known]; exact List.mem_singleton.mpr rfl, Match.beats_refl m⟩

/-- A longest match represents whatever is found after some characters of the text. -/
theorem represent_finds {K : Findings} {text : List Char} {result : Option Match} (finds : Finds K text result) :
    Represent result.toList fun m => 0 < m.length ∧ m.length ≤ text.length ∧ K (text.take m.length) (some m.kind) where
  sound m member := by
    obtain rfl := Option.mem_toList.mp member
    exact ⟨finds.positive, finds.inside, finds.best.found m.kind rfl⟩
  beaten m holds := by
    obtain ⟨positive, inside, found⟩ := holds
    cases result with
    | none => exact absurd found (Tokenizer.isBest_none_iff.mp (finds m.length positive inside) m.kind)
    | some first =>
      refine ⟨first, List.mem_singleton.mpr rfl, ?_⟩
      rcases Nat.lt_trichotomy m.length first.length with shorter | same | longer
      · exact Match.beats_iff.mpr (.inl shorter)
      · rw [same] at found
        obtain ⟨k, earlier, isFirst⟩ := finds.best.first _ found m.kind rfl
        obtain rfl := Option.some.inj isFirst
        exact Match.beats_iff.mpr (.inr ⟨same.symm, earlier⟩)
      · exact absurd found (Tokenizer.isBest_none_iff.mp (finds.beyond m.length longer inside) m.kind)

theorem automaton_finds (passes : g.Passes options) (text : List Char) : Finds (kindsFound g options i) text
    ((namedGraph g options i).lastMatch 0 (closedGraph g options i).openingStates none text) := by
  have sound := sound_of_passes passes i
  have fresh := draft_fresh passes i
  obtain ⟨sem, completed⟩ := Automaton.Graph.completeAll_completed fresh options.closing
  exact (Automaton.Graph.lastMatch_findsLast sound.labelled completed (sound.labelled.active_opening completed fresh) 0 none
    text).finds

/-- A match that a lexical state offers apart from its literals. -/
def OfferedApart (g : Grammar) (options : GenerationOptions) (i : Nat) (text : List Char) (m : Match) : Prop :=
  (m.length = 0 ∧ emptyKind g options i = some m.kind ∨ m.length = 1 ∧ (draft g options i).wildcard = some m.kind) ∨
    0 < m.length ∧ m.length ≤ text.length ∧ kindsFound g options i (text.take m.length) (some m.kind)

/-- A match of a literal as it may be spelled. -/
def OfferedSpelled (g : Grammar) (options : GenerationOptions) (i : Nat) (text : List Char) (m : Match) : Prop :=
  0 < m.length ∧ m.length ≤ text.length ∧ ∃ l ∈ literalsOf g options.withTables i, l.kind = m.kind ∧
    SpelledAs (options.ignoreCase || l.ignoreCase) (text.take m.length) l.chars

/-- What a lexical state offers apart from its literals. -/
def offersApart (g : Grammar) (options : GenerationOptions) (i : Nat) (text : List Char) : List Match :=
  ((emptyKind g options i).map fun k => (⟨k, 0⟩ : Match)).toList ++
    ((draft g options i).wildcard.map fun k => (⟨k, 1⟩ : Match)).toList ++
    ((namedGraph g options i).lastMatch 0 (closedGraph g options i).openingStates none text).toList

/-- What a lexical state offers by way of its literals in a text that begins with `c`. -/
def offersByLiterals (g : Grammar) (options : GenerationOptions) (i : Nat) (text : List Char) (c : Char) : List Match :=
  (((ownTables g options i).tables.beginningWith i c).map (ownLiteralMatches g options i text)).flatten

theorem ownMatch_cons (g : Grammar) (options : GenerationOptions) (i : Nat) (c : Char) (rest : List Char) :
    ownMatch g options i (c :: rest) =
      Match.best (offersApart g options i (c :: rest) ++ offersByLiterals g options i (c :: rest) c) := rfl

theorem mem_offersByLiterals {text : List Char} {c : Char} {m : Match} : m ∈ offersByLiterals g options i text c ↔
    ∃ l ∈ literalsOf g options i, c ∈ LiteralIndex.entryKeys ((literalIndex g options i).entryOf l) ∧
      m ∈ ownLiteralMatches g options i text ((literalIndex g options i).entryOf l) := by
  have entered : ∀ e, e ∈ (ownTables g options i).tables.beginningWith i c ↔ ∃ l ∈ literalsOf g options i,
      e = (literalIndex g options i).entryOf l ∧ c ∈ LiteralIndex.entryKeys e := by
    intro e
    unfold ownTables
    rw [LiteralIndex.mem_register (LiteralIndex.absent_empty i), literalIndex_literals]
    rfl
  unfold offersByLiterals
  rw [List.mem_flatten]
  constructor
  · rintro ⟨ms, listed, inside⟩
    obtain ⟨e, entry, rfl⟩ := List.mem_map.mp listed
    obtain ⟨l, member, rfl, key⟩ := (entered e).mp entry
    exact ⟨l, member, key, inside⟩
  · rintro ⟨l, member, key, inside⟩
    exact ⟨_, List.mem_map_of_mem ((entered _).mpr ⟨l, member, rfl, key⟩), inside⟩

theorem offersApart_represent (passes : g.Passes options) (text : List Char) :
    Represent (offersApart g options i text) (OfferedApart g options i text) :=
  ((represent_map _ 0).append (represent_map _ 1)).append (represent_finds (automaton_finds passes text))

/-- With its literals in the automaton a lexical state offers the same, and the literals as they may be spelled. -/
theorem offeredApart_withoutTables (passes : g.Passes options) {text : List Char} {m : Match} :
    OfferedApart g options.withoutTables i text m ↔
      OfferedApart g options.withTables i text m ∨ OfferedSpelled g options i text m := by
  unfold OfferedApart OfferedSpelled
  rw [emptyKind_withoutTables passes, wildcard_withoutTables, @or_assoc (_ ∨ _)]
  refine or_congr_right ?_
  by_cases inside : 0 < m.length ∧ m.length ≤ text.length
  · have unread : text.take m.length ≠ [] := by
      intro none
      rw [List.take_eq_nil_iff] at none
      rcases none with zero | rfl
      · omega
      · simp at inside
        omega
    rw [kindsFound_withoutTables passes unread]
    simp only [inside, true_and]
  · constructor
    · exact fun both => absurd ⟨both.1, both.2.1⟩ inside
    · exact fun both => both.elim (fun one => absurd ⟨one.1, one.2.1⟩ inside) fun one => absurd ⟨one.1, one.2.1⟩ inside

/-- A kind that the automaton finds is that of a rule of the lexical state that matches the text. -/
theorem rule_of_kindsFound (passes : g.Passes options) {text : List Char} {k : Kind}
    (found : kindsFound g options i text (some k)) : ∃ r ∈ automatonRules g options i,
      Regex.Matches g.definitions r.ignoreCase r.regex text ∧ k = r.kind := by
  have fresh := draft_fresh passes i
  obtain ⟨sem, completed⟩ := Automaton.Graph.completeAll_completed fresh options.closing
  obtain ⟨r, listed, matched, kind⟩ :=
    (Tokenizer.path_iff_matched (draft_graph passes i)).mp (found.matched completed.toRepresents fresh)
  exact ⟨r, listed, matched, Option.some.inj kind⟩

/-! ### Literals in tables -/

/-- The tables match the literals of a lexical state in a text as the automaton would. -/
structure LiteralsFit (g : Grammar) (options : GenerationOptions) (i : Nat) (text : List Char) : Prop where
  /-- They fold the case of characters as the automaton does. -/
  folds : ∀ l ∈ literalsOf g options.withTables i, (options.ignoreCase || l.ignoreCase) = true →
    ∀ w ∈ l.chars, ∀ c ∈ text, FoldsAlike w (options.literalSettings.kept w) c
  /-- Of the literals that are followed through the automaton no two are reported as one kind. -/
  distinct : Follows g options.withTables i →
    ∀ l ∈ literalsOf g options.withTables i, ∀ m ∈ literalsOf g options.withTables i,
      ((literalIndex g options.withTables i).entryOf l).kind = ((literalIndex g options.withTables i).entryOf m).kind → l = m
  /-- The automaton does not tell the spellings of such a literal apart. -/
  even : Follows g options.withTables i →
    ∀ l ∈ literalsOf g options.withTables i, (options.ignoreCase || l.ignoreCase) = true →
      ∀ w ∈ l.chars, ∀ c ∈ text, c ∈ Text.caseForms w → ∀ s : Nat,
        ((draft g options.withTables i).graph.state s).accepts c = ((draft g options.withTables i).graph.state s).accepts w

variable {text : List Char} {l : Literal}

theorem LiteralsFit.suffix (fit : LiteralsFit g options i text) {rest : List Char} (suffix : rest <:+ text) :
    LiteralsFit g options i rest where
  folds l member ignores w written c inside := fit.folds l member ignores w written c (suffix.mem inside)
  distinct := fit.distinct
  even follows l member ignores w written c inside := fit.even follows l member ignores w written c (suffix.mem inside)

theorem literalIndex_ignores : (literalIndex g options.withTables i).ignores l = (options.ignoreCase || l.ignoreCase) := by
  unfold LiteralIndex.ignores
  rw [literalIndex_options]
  rfl

theorem LiteralsFit.foldsIn (fit : LiteralsFit g options i text) (member : l ∈ literalsOf g options.withTables i) :
    (literalIndex g options.withTables i).FoldsIn l text := by
  unfold LiteralIndex.FoldsIn
  rw [literalIndex_ignores, literalIndex_options]
  exact fit.folds l member

/-- After a spelling of a literal that is followed the automaton finds what it finds after its text. -/
theorem LiteralsFit.kindsFound_spelled (fit : LiteralsFit g options i text) (follows : Follows g options.withTables i)
    (member : l ∈ literalsOf g options.withTables i)
    (spelled : SpelledAs (options.ignoreCase || l.ignoreCase) (text.take l.length) l.chars) (more : List Char) :
    kindsFound g options.withTables i (text.take l.length ++ more) = kindsFound g options.withTables i (l.chars ++ more) := by
  have same : (draft g options.withTables i).graph.entered {0} (text.take l.length) =
      (draft g options.withTables i).graph.entered {0} l.chars :=
    Automaton.Graph.entered_spelled (fun ignores w written c inside form =>
      fit.even follows l member ignores w written c (List.mem_of_mem_take inside) form) spelled
  funext kind
  unfold kindsFound KindFound
  rw [Automaton.Graph.entered_append, Automaton.Graph.entered_append, same]

theorem spelled_length (spelled : SpelledAs (options.ignoreCase || l.ignoreCase) (text.take l.length) l.chars) :
    l.length ≤ text.length := by
  have same := spelled.length
  rw [List.length_take] at same
  have : l.length = l.chars.length := rfl
  omega

/-- The matches by way of a literal are offered without tables too. -/
theorem LiteralsFit.sound (fit : LiteralsFit g options i text) (passes : g.Passes options)
    (kinds : (g.regexes.map (·.kind)).Nodup) (member : l ∈ literalsOf g options.withTables i) {m : Match}
    (inside : m ∈ ownLiteralMatches g options.withTables i text ((literalIndex g options.withTables i).entryOf l)) :
    OfferedApart g options.withTables i text m ∨ OfferedSpelled g options i text m := by
  have passesToo := passes_withTables.mpr passes
  have positive : 0 < l.length := List.length_pos_iff.mpr (literal_ne_nil member)
  unfold ownLiteralMatches at inside
  dsimp only at inside
  split at inside
  · rename_i begins
    have spelled := (LiteralIndex.begins_iff_spelled (fit.foldsIn member)).mp begins
    rw [literalIndex_ignores] at spelled
    have fits := spelled_length spelled
    have here : ∀ kind, Follows g options.withTables i → kindsFound g options.withTables i l.chars kind →
        kindsFound g options.withTables i (text.take l.length) kind := by
      intro kind follows found
      have same := fit.kindsFound_spelled follows member spelled []
      rw [List.append_nil, List.append_nil] at same
      rwa [same]
    rw [LiteralIndex.entryOf_length] at inside
    rcases List.mem_cons.mp inside with rfl | longer
    · cases shadow : (literalIndex g options.withTables i).shadowingKind l with
      | none =>
        refine .inr ⟨positive, fits, l, member, ?_, spelled⟩
        unfold LiteralIndex.entryOf
        rw [shadow]
        rfl
      | some k =>
        have kind : ((literalIndex g options.withTables i).entryOf l).kind = k := by
          unfold LiteralIndex.entryOf
          rw [shadow]
          rfl
        obtain ⟨follows, found | ⟨one, any⟩⟩ := shadowed_found passesToo kinds member shadow
        · exact .inl (.inr ⟨positive, fits, by rw [kind]; exact here _ follows found⟩)
        · exact .inl (.inl (.inr ⟨one, by rw [kind]; exact any⟩))
    · obtain ⟨name, start, ran⟩ := Option.bind_eq_some_iff.mp (Option.mem_toList.mp longer)
      obtain ⟨follows, other, listed, kind, finds⟩ := resumed_findsLast passesToo kinds start
      obtain rfl := fit.distinct follows other listed l member kind
      rcases finds other.length (text.drop other.length) with ⟨beyond, longest, isMatch⟩ | ⟨_, none⟩
      · obtain rfl := Option.some.inj (ran.symm.trans isMatch)
        have found := longest.best.found beyond.kind rfl
        have ends := longest.inside
        rw [List.length_drop] at ends
        refine .inl (.inr ⟨Nat.lt_of_lt_of_le positive (Nat.le_add_right _ _), by dsimp only; omega, ?_⟩)
        dsimp only
        rw [List.take_add, fit.kindsFound_spelled follows member spelled]
        exact found
      · exact nomatch none.symm.trans ran
  · cases inside

/-- Where a literal is spelled, a match by way of its entry is as good. -/
theorem LiteralsFit.beaten {c : Char} {rest : List Char} (fit : LiteralsFit g options i (c :: rest)) {m : Match}
    (offered : OfferedSpelled g options i (c :: rest) m) : ∃ l ∈ literalsOf g options.withTables i,
      c ∈ LiteralIndex.entryKeys ((literalIndex g options.withTables i).entryOf l) ∧
      ∃ first ∈ ownLiteralMatches g options.withTables i (c :: rest) ((literalIndex g options.withTables i).entryOf l),
        first.beats m = true := by
  obtain ⟨positive, inside, l, member, kind, spelled⟩ := offered
  have length : m.length = l.length := by
    have same := spelled.length
    rw [List.length_take, Nat.min_eq_left inside] at same
    exact same
  rw [length, ← literalIndex_ignores] at spelled
  have folds := fit.foldsIn member
  refine ⟨l, member, LiteralIndex.mem_entryKeys folds (literal_ne_nil member) spelled,
    ⟨((literalIndex g options.withTables i).entryOf l).kind, l.length⟩, ?_, ?_⟩
  · unfold ownLiteralMatches
    dsimp only
    rw [if_pos ((LiteralIndex.begins_iff_spelled folds).mpr spelled), LiteralIndex.entryOf_length]
    exact List.mem_cons_self
  · refine Match.beats_iff.mpr (.inr ⟨length.symm, ?_⟩)
    rw [← kind]
    exact LiteralIndex.entryOf_kind_le _ l

theorem literalsOf_withoutTables : literalsOf g options.withoutTables i = [] := by
  rw [List.eq_nil_iff_forall_not_mem]
  intro l member
  obtain ⟨r, _, isLiteral⟩ := mem_literalsOf.mp member
  have literal := (literalRule?_some isLiteral).2
  rw [literalOf?_withoutTables] at literal
  cases literal

/-- A lexical state whose literals fit a text matches the same with the tables and without them. -/
theorem ownMatch_withTables (passes : g.Passes options) (kinds : (g.regexes.map (·.kind)).Nodup)
    (fit : LiteralsFit g options i text) :
    ownMatch g options.withTables i text = ownMatch g options.withoutTables i text := by
  cases text with
  | nil =>
    unfold ownMatch
    rw [emptyKind_withoutTables passes]
  | cons c rest =>
    have none : offersByLiterals g options.withoutTables i (c :: rest) c = [] := by
      rw [List.eq_nil_iff_forall_not_mem]
      intro m inside
      obtain ⟨l, member, _⟩ := mem_offersByLiterals.mp inside
      rw [literalsOf_withoutTables] at member
      cases member
    rw [ownMatch_cons, ownMatch_cons, none, List.append_nil]
    refine Represent.best_eq ?_ ((offersApart_represent (passes_withoutTables.mpr passes) (c :: rest)).congr fun m =>
      offeredApart_withoutTables passes)
    refine (offersApart_represent (passes_withTables.mpr passes) (c :: rest)).extend (fun m member => ?_) fun m offered => ?_
    · obtain ⟨l, literal, _, inside⟩ := mem_offersByLiterals.mp member
      exact fit.sound passes kinds literal inside
    · obtain ⟨l, literal, key, first, inside, beats⟩ := fit.beaten offered
      exact ⟨first, mem_offersByLiterals.mpr ⟨l, literal, key, inside⟩, beats⟩

end Assembly

/-- Two keywords, and words. -/
def keywordsFirst : Grammar where
  states := ["DEFAULT"]
  productions := [⟨.token, some ["DEFAULT"], false,
    [⟨.regex ⟨1, some "IF", false, .literal .unknown "if"⟩, none, none, .unknown⟩,
     ⟨.regex ⟨2, some "IN", false, .literal .unknown "in"⟩, none, none, .unknown⟩,
     ⟨.regex ⟨3, none, false, .repetition .unknown (.charClass .unknown ⟨false, [.range 'a' 'z']⟩) 1 none⟩,
      none, none, .unknown⟩], .unknown⟩]

end TokenTables
