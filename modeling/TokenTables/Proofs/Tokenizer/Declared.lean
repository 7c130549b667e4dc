import TokenTables.Proofs.Automaton.Run
import TokenTables.Proofs.Literal.Entries
import TokenTables.Proofs.Tokenizer.Assembly

/-!
Where kinds come from. Whatever a lexical state reports is the kind of a regex that is declared in it and not private:
the graph drafted for it holds no other kinds, closing and naming invent none, and neither do its literal tables.
-/

namespace TokenTables

open Automaton (Graph)

/-- The lexical state has a regex of this kind that is not private. -/
def Grammar.Declares (g : Grammar) (state : Nat) (k : Kind) : Prop :=
  ∃ r ∈ g.rulesIn state, r.regex.isPrivate = false ∧ r.regex.kind = k

namespace Assembly

variable {g : Grammar} {options : GenerationOptions} {i : Nat} {k : Kind}

theorem declares_of_literal {l : Literal} (member : l ∈ (draft g options i).index.literals) : g.Declares i l.kind := by
  rw [(draft_drafted g options i).literals] at member
  obtain ⟨r, rule, isLiteral⟩ := List.mem_filterMap.mp member
  unfold literalRule? at isLiteral
  split at isLiteral
  · cases isLiteral
  · rename_i isPublic
    obtain ⟨_, _, _, _, rfl, _⟩ := literalOf?_some isLiteral
    exact ⟨r, rule, by simpa using isPublic, rfl⟩

theorem declares_of_wildcard (wildcard : (draft g options i).wildcard = some k) : g.Declares i k := by
  obtain ⟨r, rule, ⟨isPublic, _⟩, same⟩ := (draft_drafted g options i).wildcard.found k wildcard
  exact ⟨r, rule, isPublic, (Option.some.inj same).symm⟩

/-- The kinds of the graph are those of the rules that went there. -/
theorem declares_of_draft (passes : g.Passes options) {s : Nat}
    (kind : ((draft g options i).graph.state s).kind = some k) : g.Declares i k := by
  obtain ⟨pieces, ruled, same⟩ := Automaton.Graph.ofRules_ruled (draft_graph passes i)
  have rule : ∀ p ∈ pieces, g.Declares i p.kind := by
    intro p member
    have listed := List.mem_map_of_mem (f := fun p : Automaton.Graph.RulePiece => (p.kind, p.texts)) member
    rw [same] at listed
    obtain ⟨rule, inAutomaton, isPair⟩ := List.mem_map.mp listed
    obtain ⟨r, declared, goes⟩ := List.mem_filterMap.mp inAutomaton
    have own : rule.kind = p.kind := congrArg Prod.fst isPair
    rw [← own]
    obtain ⟨isPublic, _, _, rfl⟩ := automatonRule?_eq_some.mp goes
    exact ⟨r, declared, isPublic, rfl⟩
  rcases ruled.cases s with ⟨state, _⟩ | state | ⟨p, member, low, high, _⟩
  · rw [state] at kind
    cases kind
  · rw [state] at kind
    cases kind
  · obtain ⟨_, rfl⟩ := ruled.kind_inner member low high kind
    exact rule p member

/-- Closing adds no kinds. -/
theorem declares_of_closed (passes : g.Passes options) {s : Nat}
    (kind : ((closedGraph g options i).state s).kind = some k) : g.Declares i k := by
  obtain ⟨sem, completed⟩ := Automaton.Graph.completeAll_completed (draft_fresh passes i) options.closing
  obtain ⟨u, _, f, _, found⟩ := completed.kind s k kind
  exact declares_of_draft passes found

theorem declares_of_kindAfter (passes : g.Passes options) {s : Nat}
    (kind : (closedGraph g options i).kindAfter s = some k) : g.Declares i k := by
  obtain ⟨n, _, found⟩ := Option.bind_eq_some_iff.mp kind
  exact declares_of_closed passes found

/-- The kinds reported on the way through the automaton are declared. -/
theorem Sound.keepsTo (sound : Sound g options i) (passes : g.Passes options) :
    LiteralIndex.KeepsTo (namedGraph g options i) (g.Declares i)
      fun s => ((namedGraph g options i).state s).name.isSome = true where
  kind active c k named reported := by
    obtain ⟨s, member, _, own⟩ := (Automaton.Graph.step_kind active).found k reported
    obtain ⟨n, known⟩ := Option.isSome_iff_exists.mp (named s member)
    exact declares_of_kindAfter passes ((sound.labelled.known s n known).2.1.symm.trans own.symm)
  next active c named s member := by
    obtain ⟨q, inActive, _, listed⟩ := Automaton.Graph.mem_step.mp member
    rw [sound.labelled.same.listAfter] at listed
    exact sound.labelled.after q (named q inActive) s listed

/-- The opening states of the named graph are those of the closed one. -/
theorem Sound.openingStates (sound : Sound g options i) :
    (namedGraph g options i).openingStates = (closedGraph g options i).openingStates := by
  unfold Graph.openingStates
  rw [sound.labelled.same.initial]
  cases (closedGraph g options i).initial with
  | none => rfl
  | some initial => exact sound.labelled.same.epsilon initial

/-- The kind of the empty text is what closing found for the initial state. -/
theorem openingKind_eq (passes : g.Passes options) :
    (namedGraph g options i).openingKind = ((closedGraph g options i).state 0).kind := by
  have fresh := draft_fresh passes i
  obtain ⟨sem, completed⟩ := Automaton.Graph.completeAll_completed fresh options.closing
  have initial : (closedGraph g options i).initial = some 0 := completed.initial.trans fresh.initial
  unfold Graph.openingKind
  rw [(sound_of_passes passes i).labelled.same.initial, initial]
  exact (sound_of_passes passes i).labelled.same.kind 0

/-- The literals of a lexical state are those drafted. -/
theorem literalIndex_eq : ∃ extendedKinds extendedEnds progress resumptions, literalIndex g options i =
    { (draft g options i).index with
      mixesCase := (draft g options i).mixesCase, extendedKinds, extendedEnds, progress, resumptions } := by
  unfold literalIndex
  dsimp only
  split
  · obtain ⟨progress, resumptions, same⟩ := LiteralIndex.findResumptions_eq
      ({ (draft g options i).index with mixesCase := (draft g options i).mixesCase } : LiteralIndex).markExtended
      (namedGraph g options i) (draft g options i).wildcard
    exact ⟨_, _, progress, resumptions, same⟩
  · exact ⟨_, _, _, _, rfl⟩

theorem literalIndex_literals : (literalIndex g options i).literals = (draft g options i).index.literals := by
  obtain ⟨_, _, _, _, same⟩ := @literalIndex_eq g options i
  rw [same]

theorem literalIndex_options : (literalIndex g options i).options = options.literalSettings := by
  obtain ⟨_, _, _, _, same⟩ := @literalIndex_eq g options i
  rw [same]
  exact (draft_drafted g options i).settings

theorem declares_of_entry (passes : g.Passes options) {l : Literal}
    (member : l ∈ (literalIndex g options i).literals) : g.Declares i ((literalIndex g options i).entryOf l).kind := by
  have sound := sound_of_passes passes i
  rw [literalIndex_literals] at member
  refine LiteralIndex.entryOf_kind ?_ (declares_of_literal member)
  unfold literalIndex
  dsimp only
  split
  · exact LiteralIndex.findResumptions_progress (sound.keepsTo passes) (fun k => declares_of_wildcard)
      (by rw [sound.openingStates]; exact sound.labelled.opening)
  · intro k steps known
    have none : (draft g options i).index.progress[k]? = some steps := known
    rw [(draft_drafted g options i).progress] at none
    simp at none

theorem declares_of_emptyKind (passes : g.Passes options) (kind : emptyKind g options i = some k) : g.Declares i k := by
  have labelled := (sound_of_passes passes i).labelled
  obtain ⟨opening, _⟩ := Option.filter_eq_some_iff.mp kind
  obtain ⟨initial, _, found⟩ := Option.bind_eq_some_iff.mp opening
  rw [labelled.same.state initial] at found
  exact declares_of_closed passes found

end Assembly

end TokenTables
