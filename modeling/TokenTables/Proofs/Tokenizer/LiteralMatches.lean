import TokenTables.Proofs.Grammar.Rules
import TokenTables.Proofs.Literal.Spelling
import TokenTables.Proofs.Tokenizer.Declared
import TokenTables.Proofs.Tokenizer.OwnMatch

/-!
Matches by way of literals. A kind that shadows a literal is one that the automaton finds after the text of the literal,
and what is matched on from a literal is what the automaton finds after this text and more.
-/

namespace TokenTables

open Automaton (EntryName Graph StateId)
open Automaton.Graph (Active Completed KindFound)
open Tokenizer (Findings FindsLast)

/-! ### Literals of a lexical state -/

namespace Assembly

variable {g : Grammar} {options : GenerationOptions} {i : Nat}

/-- The literals of a lexical state that are kept in tables. -/
def literalsOf (g : Grammar) (options : GenerationOptions) (i : Nat) : List Literal := (draft g options i).index.literals

theorem mem_literalsOf {l : Literal} : l ∈ literalsOf g options i ↔ ∃ r ∈ g.rulesIn i, literalRule? options r = some l := by
  unfold literalsOf
  rw [(draft_drafted g options i).literals, List.mem_filterMap]

theorem literalRule?_some {r : DeclaredRule} {l : Literal} (isLiteral : literalRule? options r = some l) :
    r.regex.isPrivate = false ∧ literalOf? options r = some l := by
  unfold literalRule? at isLiteral
  split at isLiteral
  · cases isLiteral
  · rename_i isPublic
    exact ⟨by simpa using isPublic, isLiteral⟩

theorem literal_ne_nil {l : Literal} (member : l ∈ literalsOf g options i) : l.chars ≠ [] := by
  obtain ⟨r, _, isLiteral⟩ := mem_literalsOf.mp member
  obtain ⟨_, _, _, _, _, some⟩ := literalOf?_some (literalRule?_some isLiteral).2
  exact some

theorem literal_of_kind (distinct : (g.regexes.map (·.kind)).Nodup) {l m : Literal} (first : l ∈ literalsOf g options i)
    (second : m ∈ literalsOf g options i) (same : l.kind = m.kind) : l = m := by
  obtain ⟨r, ruleR, isL⟩ := mem_literalsOf.mp first
  obtain ⟨s, ruleS, isM⟩ := mem_literalsOf.mp second
  obtain ⟨_, _, _, _, kindL, _⟩ := literalOf?_some (literalRule?_some isL).2
  obtain ⟨_, _, _, _, kindM, _⟩ := literalOf?_some (literalRule?_some isM).2
  have kinds : r.regex.kind = s.regex.kind := by
    rw [kindL, kindM] at same
    exact same
  obtain rfl := Grammar.rule_of_kind distinct ruleR ruleS kinds
  exact Option.some.inj (isL.symm.trans isM)

/-! ### What is found -/

/-- The kinds that the automaton of a lexical state finds. -/
def kindsFound (g : Grammar) (options : GenerationOptions) (i : Nat) : Findings :=
  KindFound (draft g options i).graph (closedGraph g options i) {0}

/-- Whether the literals of a lexical state are followed through its automaton. -/
def Follows (g : Grammar) (options : GenerationOptions) (i : Nat) : Prop :=
  (draft g options i).mixesCase = false ∧ (namedGraph g options i).nameCount ≠ 0

theorem literalIndex_cases : ((literalIndex g options i).progress = {} ∧ (literalIndex g options i).resumptions = #[]) ∨
    Follows g options i ∧ ∃ t : LiteralIndex, t.literals = literalsOf g options i ∧
      t.Follows (namedGraph g options i) (draft g options i).wildcard (literalIndex g options i) := by
  unfold literalIndex
  dsimp only
  split
  · rename_i follows
    simp only [Bool.and_eq_true, bne_iff_ne, Bool.not_eq_true'] at follows
    exact .inr ⟨⟨follows.2, follows.1⟩, ({ (draft g options i).index with
      mixesCase := (draft g options i).mixesCase } : LiteralIndex).markExtended, rfl,
      LiteralIndex.findResumptions_follows _ _ _⟩
  · exact .inl ⟨(draft_drafted g options i).progress, (draft_drafted g options i).resumptions⟩

/-- The run of the automaton along a text, from the opening states on. -/
theorem Sound.along (sound : Sound g options i) (passes : g.Passes options) {text : List Char} {n : Nat}
    {kind : Option Kind} {after : List StateId}
    (here : ((namedGraph g options i).trace (namedGraph g options i).openingStates text)[n]? = some (kind, after)) :
    Kind.IsBest kind (kindsFound g options i (text.take (n + 1))) ∧ ∃ sem,
      Completed (draft g options i).graph sem (closedGraph g options i) ∧
      Active (draft g options i).graph sem (closedGraph g options i) (namedGraph g options i)
        ((draft g options i).graph.entered {0} (text.take (n + 1))) after := by
  have fresh := draft_fresh passes i
  obtain ⟨sem, completed⟩ := Automaton.Graph.completeAll_completed fresh options.closing
  rw [sound.openingStates] at here
  obtain ⟨best, active⟩ := (sound.labelled.active_opening completed fresh).along sound.labelled completed here
  exact ⟨best, sem, completed, active⟩

/-- The kind that shadows a literal is found after the text of the literal, or is that of any character. -/
theorem shadowed_found (passes : g.Passes options) (distinct : (g.regexes.map (·.kind)).Nodup) {l : Literal}
    (member : l ∈ literalsOf g options i) {k : Kind} (shadow : (literalIndex g options i).shadowingKind l = some k) :
    Follows g options i ∧
      (kindsFound g options i l.chars (some k) ∨ l.length = 1 ∧ (draft g options i).wildcard = some k) := by
  have positive : 0 < l.length := List.length_pos_iff.mpr (literal_ne_nil member)
  rcases @literalIndex_cases g options i with ⟨none, _⟩ | ⟨goes, t, own, follows⟩
  · obtain ⟨steps, known, _⟩ := LiteralIndex.shadowingKind_some shadow
    rw [none] at known
    simp at known
  · obtain ⟨other, listed, same, step, active, here, kind, place⟩ := follows.shadowingKind shadow
    obtain rfl := literal_of_kind distinct (own ▸ listed) member same
    refine ⟨goes, ?_⟩
    have early : LiteralIndex.Progress.Before {} ([] : List Char).length := fun some => absurd rfl some
    rcases LiteralIndex.follow_matched early here kind (by rw [place, List.length_nil, Nat.zero_add]) with reported | ⟨zero, any⟩
    · have found := ((sound_of_passes passes i).along passes reported).1.found k rfl
      rw [Nat.sub_add_cancel positive, Literal.length, List.take_length] at found
      exact .inl found
    · rw [List.length_nil] at zero
      exact .inr ⟨by omega, any⟩

/-- Where there is a name to go on from, the matches after it are found after the text of a literal and more. -/
theorem resumed_findsLast (passes : g.Passes options) (distinct : (g.regexes.map (·.kind)).Nodup) {k : Kind}
    {name : EntryName} (start : (ownTables g options i).tables.startStates[(i, k)]? = some name) :
    Follows g options i ∧ ∃ l ∈ literalsOf g options i, ((literalIndex g options i).entryOf l).kind = k ∧
      ∀ consumed text, FindsLast (fun more => kindsFound g options i (l.chars ++ more)) consumed none text
        ((ownTables g options i).graph.lastMatch consumed ((ownTables g options i).graph.statesOf name) none text) := by
  have sound := sound_of_passes passes i
  have absent := LiteralIndex.absent_empty i
  obtain ⟨l, member, kind, _, n, states, rfl, resumes, stands⟩ :=
    @LiteralIndex.register_started _ _ i 0 {} sound.resumesWithin sound.ordered absent k name start
  rw [literalIndex_literals] at member
  have positive : 0 < l.length := List.length_pos_iff.mpr (literal_ne_nil member)
  rcases @literalIndex_cases g options i with ⟨_, none⟩ | ⟨goes, t, own, follows⟩
  · obtain ⟨_, ⟨entries, place, _⟩, _⟩ := LiteralIndex.resumptionStates_some resumes
    rw [none] at place
    cases place
  · obtain ⟨other, listed, same, step, active, here, rfl⟩ := follows.resumptionStates resumes
    obtain rfl := literal_of_kind distinct (own ▸ listed) member same
    refine ⟨goes, other, member, kind, fun consumed text => ?_⟩
    obtain ⟨reported, traced⟩ : ∃ reported, ((namedGraph g options i).trace (namedGraph g options i).openingStates
        other.chars)[other.length - 1]? = some (reported, active) := by
      have states := congrArg (·[other.length - 1]?) (@LiteralIndex.follow_states t (namedGraph g options i)
        (draft g options i).wildcard [] {} (namedGraph g options i).openingStates other.chars)
      have placed : (t.follow (namedGraph g options i) (draft g options i).wildcard [] {}
        (namedGraph g options i).openingStates other.chars)[other.length - 1]? = some (step, active) := here
      rw [List.getElem?_map, List.getElem?_map, placed] at states
      obtain ⟨⟨reported, after⟩, there, rfl⟩ := Option.map_eq_some_iff.mp states.symm
      exact ⟨reported, there⟩
    obtain ⟨_, sem, completed, activeStates⟩ := sound.along passes traced
    rw [Nat.sub_add_cancel positive, Literal.length, List.take_length] at activeStates
    have members : ∀ n, n ∈ ascending ((namedGraph g options i).entryNames active) ↔
        ∃ s ∈ active, ((namedGraph g options i).state s).name = some n := by
      intro n
      unfold Graph.entryNames
      rw [mem_ascending, mem_ascending, List.mem_filterMap]
    have ofName : (ownTables g options i).graph.statesOf name =
        (ascending ((namedGraph g options i).entryNames active)).filterMap ((ownTables g options i).graph.named[·]?) :=
      Automaton.Graph.statesOf_eq stands
    have more : Automaton.Graph.MoreGroups (namedGraph g options i) (ownTables g options i).graph :=
      (LiteralIndex.register_registers sound.resumesWithin sound.ordered absent).more
    have findings : (fun more => kindsFound g options i (other.chars ++ more)) =
        KindFound (draft g options i).graph (closedGraph g options i) ((draft g options i).graph.entered {0} other.chars) := by
      funext more kind
      unfold kindsFound KindFound
      rw [Automaton.Graph.entered_append]
    rw [findings, ofName, more.named, Automaton.Graph.lastMatch_congr more.states,
      Automaton.Graph.lastMatch_firsts sound.labelled activeStates.named members]
    exact Automaton.Graph.lastMatch_findsLast sound.labelled completed activeStates consumed none text

end Assembly

end TokenTables
