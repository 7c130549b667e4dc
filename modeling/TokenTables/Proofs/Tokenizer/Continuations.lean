import TokenTables.Proofs.Literal.Continuation
import TokenTables.Proofs.Tokenizer.LiteralMatches

/-!
Going on after literals. Where a tokenizer goes on after a literal is kept by the kind that its entry reports. For the
last literal entered under a kind these are the states that its text leads to, and for the others only if theirs are the
same.
-/

namespace TokenTables

open Automaton (EntryName Graph StateId)
open Automaton.Graph (StandsFor)

/-- After a text of this kind a tokenizer goes on in the entries of the states that the text leads to in the automaton of
a lexical state, and nowhere if it leads to none. -/
structure Tokenizer.GoesOn (t : Tokenizer) (i offset : Nat) (g : Graph) (k : Kind) (text : List Char) : Prop where
  going : g.activeAfter text ≠ [] → ∃ name, t.literals.startStates[(i, k)]? = some name ∧
    t.expand name = (g.entryNames (g.activeAfter text)).map (· + offset)
  stopped : g.activeAfter text = [] → t.literals.startStates[(i, k)]? = none

namespace Assembly

variable {g : Grammar} {options : GenerationOptions} {i : Nat}

theorem draft_made (g : Grammar) (options : GenerationOptions) (i : Nat) : (draft g options i).index.Made := by
  refine List.foldlRecOn (motive := fun d : StateDraft => d.index.Made) _ _ (.empty _) fun d before r _ => ?_
  unfold draftRule
  split
  · exact before
  · split
    · exact before.insert _
    · split
      · exact before
      · exact before

/-- The literals of a lexical state that are followed through its automaton. -/
theorem literalIndex_follows (follows : Follows g options i) : ∃ t : LiteralIndex, t.Made ∧
    t.literals = literalsOf g options i ∧ t.mixesCase = false ∧
      literalIndex g options i = t.findResumptions (namedGraph g options i) (draft g options i).wildcard := by
  refine ⟨({ (draft g options i).index with mixesCase := (draft g options i).mixesCase } : LiteralIndex).markExtended,
    ((draft_made g options i).mixing _).markExtended, rfl, follows.1, ?_⟩
  unfold literalIndex
  dsimp only
  rw [if_pos (by simpa using follows.symm)]

theorem distinctKinds {t : LiteralIndex} (distinct : (g.regexes.map (·.kind)).Nodup)
    (own : t.literals = literalsOf g options i) : t.DistinctKinds :=
  fun _ first _ second same => literal_of_kind distinct (own ▸ first) (own ▸ second) same

/-- All states that a text leads to have names. -/
theorem Sound.activeAfter_named (sound : Sound g options i) (text : List Char) :
    ∀ s ∈ (namedGraph g options i).activeAfter text, ((namedGraph g options i).state s).name.isSome = true := by
  refine List.foldlRecOn (motive := fun active : List StateId =>
    ∀ s ∈ active, ((namedGraph g options i).state s).name.isSome = true) _ _ ?_ fun active before c _ s member => ?_
  · rw [sound.openingStates]
    exact sound.labelled.opening
  · obtain ⟨q, inActive, _, listed⟩ := Automaton.Graph.mem_step.mp member
    rw [sound.labelled.same.listAfter] at listed
    exact sound.labelled.after q (before q inActive) s listed

theorem Sound.entryNames_eq_nil (sound : Sound g options i) (text : List Char) :
    (namedGraph g options i).entryNames ((namedGraph g options i).activeAfter text) = [] ↔
      (namedGraph g options i).activeAfter text = [] := by
  refine ⟨fun none => List.eq_nil_iff_forall_not_mem.mpr fun s member => ?_, fun none => by rw [none]; rfl⟩
  obtain ⟨n, known⟩ := Option.isSome_iff_exists.mp (sound.activeAfter_named text s member)
  have listed : n ∈ (namedGraph g options i).entryNames ((namedGraph g options i).activeAfter text) :=
    mem_ascending.mpr (List.mem_filterMap.mpr ⟨s, member, known⟩)
  rw [none] at listed
  cases listed

/-- The last literal entered under a kind of a lexical state decides where to go on from this kind. -/
theorem own_continuation (passes : g.Passes options) (distinct : (g.regexes.map (·.kind)).Nodup)
    (follows : Follows g options i) {l : Literal} (member : l ∈ literalsOf g options i) :
    let names := fun text => (namedGraph g options i).entryNames ((namedGraph g options i).activeAfter text)
    ∃ last, (literalIndex g options i).LastUnder ((literalIndex g options i).entryOf l).kind last ∧
      ∃ name, (ownTables g options i).tables.startStates[(i, ((literalIndex g options i).entryOf l).kind)]? = name ∧
        StandsFor (ownTables g options i).graph name (names last.chars) ∧ (name = none ↔ names last.chars = []) := by
  intro names
  have sound := sound_of_passes passes i
  obtain ⟨t, made, own, minds, index⟩ := literalIndex_follows follows
  have listed : l ∈ (literalIndex g options i).literals := by rwa [literalIndex_literals]
  obtain ⟨last, isLast, h, moreBefore, ordered, starts, moreAfter⟩ := LiteralIndex.register_last
    sound.resumesWithin sound.ordered (LiteralIndex.absent_empty i) listed
  have count : h.nameCount = (namedGraph g options i).nameCount := congrArg Array.size moreBefore.named
  have inside : last ∈ t.literals := by
    have listed := isLast.member
    rw [literalIndex_literals] at listed
    rwa [own]
  have positive : 0 < last.length := List.length_pos_iff.mpr (made.measured.spelled last inside)
  have resumes : (literalIndex g options i).resumptionStates (last.length - 1) last.kind =
      if names last.chars = [] then none else some (names last.chars) := by
    rw [index, LiteralIndex.resumptionStates_findResumptions made (distinctKinds distinct own) inside (by omega),
      Nat.sub_add_cancel positive, Literal.length, List.take_length]
  have mixes : (literalIndex g options i).mixesCase = false := by
    obtain ⟨progress, resumptions, same⟩ := t.findResumptions_eq (namedGraph g options i) (draft g options i).wildcard
    rw [index, same]
    exact minds
  obtain ⟨stands, present⟩ := LiteralIndex.startState_names (h := h) (by rw [count]; exact sound.resumesWithin) ordered mixes
    (by rw [count]; exact follows.2) resumes
  have ascends : ascending (names last.chars) = names last.chars :=
    (ascending_ascending _).ext (ascending_ascending _) fun n => mem_ascending
  rw [ascends] at stands
  exact ⟨last, isLast, _, starts.trans Option.map_id', stands.moreGroups moreAfter, present⟩

/-- Texts of one kind after which a tokenizer goes on lead to states of the same names. -/
theorem Sound.goesOn_iff (sound : Sound g options i) {t : Tokenizer} {offset : Nat} {k : Kind} {text other : List Char}
    (goesOn : t.GoesOn i offset (namedGraph g options i) k other) :
    t.GoesOn i offset (namedGraph g options i) k text ↔
      (namedGraph g options i).entryNames ((namedGraph g options i).activeAfter text) =
        (namedGraph g options i).entryNames ((namedGraph g options i).activeAfter other) := by
  have none := sound.entryNames_eq_nil text
  have noneOther := sound.entryNames_eq_nil other
  constructor
  · intro here
    by_cases stopped : (namedGraph g options i).activeAfter other = []
    · rw [noneOther.mpr stopped, none]
      by_contra going
      obtain ⟨name, known, _⟩ := here.going going
      rw [goesOn.stopped stopped] at known
      cases known
    · obtain ⟨name, known, expands⟩ := goesOn.going stopped
      have going : (namedGraph g options i).activeAfter text ≠ [] := by
        intro nowhere
        rw [here.stopped nowhere] at known
        cases known
      obtain ⟨same, knownHere, expandsHere⟩ := here.going going
      obtain rfl := Option.some.inj (knownHere.symm.trans known)
      exact List.map_injective_iff.mpr (fun _ _ same => Nat.add_right_cancel same) (expandsHere.symm.trans expands)
  · intro same
    have stops : (namedGraph g options i).activeAfter text = [] ↔ (namedGraph g options i).activeAfter other = [] := by
      rw [← none, ← noneOther, same]
    refine ⟨fun going => ?_, fun stopped => goesOn.stopped (stops.mp stopped)⟩
    rw [same]
    exact goesOn.going (mt stops.mpr going)

/-- A lexical state in its place goes on after a kind as it does by itself. -/
theorem Placed.goesOn {offset : Nat} {update : LiteralIndex.TableUpdate} {a : Assembly} {t : Tokenizer}
    (placed : Placed g options i offset update a) (sound : Sound g options i) (tables : HasTables a t) {k : Kind}
    {name : Option EntryName} (start : (ownTables g options i).tables.startStates[(i, k)]? = name) {text : List Char}
    (stands : StandsFor (ownTables g options i).graph name
      ((namedGraph g options i).entryNames ((namedGraph g options i).activeAfter text)))
    (absent : name = none ↔ (namedGraph g options i).entryNames ((namedGraph g options i).activeAfter text) = []) :
    t.GoesOn i offset (namedGraph g options i) k text := by
  obtain ⟨exports, _⟩ := placed.exports sound tables
  have opens := exports.opens (stands.moreGroups (placed.ownGroups sound tables).2)
  have known : t.literals.startStates[(i, k)]? = name.map (· + offset) := by
    rw [tables.literals, placed.starts, placed.moved.starts, start]
  rw [sound.entryNames_eq_nil] at absent
  refine ⟨fun going => ?_, fun stopped => ?_⟩
  · obtain ⟨n, rfl⟩ := Option.ne_none_iff_exists'.mp (mt absent.mp going)
    exact ⟨n + offset, known, opens⟩
  · rw [known, absent.mpr stopped]
    rfl

end Assembly

/-- A literal of a lexical state that is followed through its automaton has its entry under each of its first characters.
Where to go on from the kind of this entry is decided by the last literal entered under it: the tokenizer goes on after
this one as the automaton would, and after the literal itself if and only if its text leads to states of the same names. -/
theorem literal_continuation {g : Grammar} {options : GenerationOptions} {made : Generation}
    (generated : generate g options = .ok made) (distinct : (g.regexes.map (·.kind)).Nodup) {i : Nat} {s : LexicalState}
    (present : made.tokenizer.states[i]? = some s) (minds : s.mixesCase = false) (automaton : s.hasAutomaton = true)
    {l : Literal} (member : l ∈ s.literals.literals) :
    let graph := Assembly.namedGraph g options i
    let entry := s.literals.entryOf l
    (∀ c ∈ LiteralIndex.entryKeys entry, entry ∈ made.tokenizer.literals.beginningWith i c) ∧
    ∃ last, s.literals.LastUnder entry.kind last ∧
      made.tokenizer.GoesOn i s.firstEntry graph entry.kind last.chars ∧
      (made.tokenizer.GoesOn i s.firstEntry graph entry.kind l.chars ↔
        graph.entryNames (graph.activeAfter l.chars) = graph.entryNames (graph.activeAfter last.chars)) := by
  obtain ⟨passes, tables⟩ := generate_ok generated
  have inside : i < g.states.length := by
    rw [← Assembly.length_tokenizer_states passes, ← tables]
    exact (List.getElem?_eq_some_iff.mp present).1
  obtain ⟨offset, update, own, placed, ownPresent, isState⟩ := Assembly.tokenizer_placed passes inside
  rw [tables] at present
  obtain rfl := Option.some.inj (ownPresent.symm.trans present)
  have sound := Assembly.sound_of_passes passes i
  have hasTables : Assembly.HasTables (Assembly.ofGrammar g options) made.tokenizer := by
    rw [tables]
    exact ⟨rfl, rfl, rfl⟩
  rw [isState.mixesCase] at minds
  rw [isState.hasAutomaton, bne_iff_ne] at automaton
  have listed : l ∈ (Assembly.literalIndex g options i).literals := by
    rwa [isState.literals, LiteralIndex.literals_shiftStates] at member
  obtain ⟨last, isLast, name, start, stands, absent⟩ := Assembly.own_continuation passes distinct ⟨minds, automaton⟩
    (by rwa [Assembly.literalIndex_literals] at listed)
  rw [isState.firstEntry, isState.literals, LiteralIndex.entryOf_shiftStates]
  intro graph entry
  have goesOn : made.tokenizer.GoesOn i offset graph entry.kind last.chars :=
    placed.goesOn sound hasTables start stands absent
  refine ⟨fun c key => ?_, last, isLast.shiftStates offset, goesOn, sound.goesOn_iff goesOn⟩
  rw [hasTables.literals, placed.candidates, placed.moved.candidates]
  exact (LiteralIndex.mem_register (LiteralIndex.absent_empty i)).mpr ⟨l, listed, rfl, key⟩

/-- A choice, and keywords for two of its alternatives. -/
def choiceFirst : Grammar where
  states := ["DEFAULT"]
  productions := [⟨.token, some ["DEFAULT"], false,
    [⟨.regex ⟨1, none, false, .choice .unknown
        [.literal .unknown "a", .literal .unknown "b", .literal .unknown "bc"]⟩, none, none, .unknown⟩,
     ⟨.regex ⟨2, none, false, .literal .unknown "a"⟩, none, none, .unknown⟩,
     ⟨.regex ⟨3, none, false, .literal .unknown "b"⟩, none, none, .unknown⟩], .unknown⟩]

/-- Both keywords are entered under the choice, so that after the first one the tokenizer goes on as after the second. -/
theorem choiceFirst_continuation : ∃ made s, generate choiceFirst {} = .ok made ∧ made.tokenizer.states[0]? = some s ∧
    s.literals.literals = [⟨['a'], 2, false, .unknown⟩, ⟨['b'], 3, false, .unknown⟩] ∧
    made.tokenizer.GoesOn 0 s.firstEntry (Assembly.namedGraph choiceFirst {} 0) 1 ['b'] ∧
    ¬ made.tokenizer.GoesOn 0 s.firstEntry (Assembly.namedGraph choiceFirst {} 0) 1 ['a'] := by
  have passes : choiceFirst.Passes {} := by
    unfold Grammar.Passes choiceFirst
    cbv
  obtain ⟨made, generated⟩ := generate_of_passes (by decide : choiceFirst.states ≠ []) passes
  obtain ⟨_, _, s, _, present, isState⟩ :=
    Assembly.tokenizer_placed (i := 0) passes (by decide : 0 < choiceFirst.states.length)
  rw [← (generate_ok generated).2] at present
  have minds : s.mixesCase = false := by
    rw [isState.mixesCase, (Assembly.draft_drafted choiceFirst _ 0).mixesCase]
    rfl
  have run : let graph := Assembly.namedGraph choiceFirst {} 0
      (graph.nameCount, graph.entryNames (graph.activeAfter ['a']), graph.entryNames (graph.activeAfter ['b'])) =
        (3, [], [1]) := by
    unfold choiceFirst
    cbv
  obtain ⟨count, names⟩ := Prod.mk.inj run
  obtain ⟨stops, goes⟩ := Prod.mk.inj names
  have automaton : s.hasAutomaton = true := by
    rw [isState.hasAutomaton, count]
    rfl
  have literals : s.literals.literals = [⟨['a'], 2, false, .unknown⟩, ⟨['b'], 3, false, .unknown⟩] := by
    rw [isState.literals, LiteralIndex.literals_shiftStates, Assembly.literalIndex_literals,
      (Assembly.draft_drafted choiceFirst _ 0).literals]
    rfl
  have kinds : ((s.literals.entryOf ⟨['a'], 2, false, .unknown⟩).kind,
      (s.literals.entryOf ⟨['b'], 3, false, .unknown⟩).kind) = (1, 1) := by
    rw [isState.literals, LiteralIndex.entryOf_shiftStates, LiteralIndex.entryOf_shiftStates]
    unfold choiceFirst
    cbv
  obtain ⟨first, second⟩ := Prod.mk.inj kinds
  obtain ⟨_, last, isLast, goesOn, same⟩ := literal_continuation generated (by decide) present minds automaton
    (l := ⟨['a'], 2, false, .unknown⟩) (by rw [literals]; exact List.mem_cons_self)
  have latest := isLast.latest ⟨['b'], 3, false, .unknown⟩ (by rw [literals]; simp) (second.trans first.symm)
  have listed := isLast.member
  rw [literals] at listed
  obtain rfl : last = ⟨['b'], 3, false, .unknown⟩ := by
    rcases List.mem_cons.mp listed with rfl | other
    · exact absurd latest (by decide)
    · exact List.mem_singleton.mp other
  rw [first] at goesOn same
  refine ⟨made, s, generated, present, literals, goesOn, fun here => ?_⟩
  have equal := same.mp here
  dsimp only at equal
  rw [stops, goes] at equal
  cases equal

end TokenTables
