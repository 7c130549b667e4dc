import Mathlib
import TokenTables.Proofs.Tokenizer.OwnMatch
import TokenTables.Proofs.Tokenizer.Scan

/-!
Loops of empty matches. A tokenizer that gets stuck has gone round a circle of empty matches, and the search made when
it was generated has walked through every such circle.
-/

namespace TokenTables

namespace EmptyMatching

variable {m : EmptyMatching} {C : Set Nat} {state : Nat} {k : Kind}

/-- Where an empty match of `state` leads. -/
def Leads (m : EmptyMatching) (state next : Nat) : Prop :=
  ∃ k, m.emptyMatch state = some k ∧ next = (m.target k).getD state

/-- Empty matches lead from these states to these states alone. -/
def Trap (m : EmptyMatching) (C : Set Nat) : Prop := ∀ state ∈ C, ∃ next ∈ C, m.Leads state next

theorem Trap.target (trap : m.Trap C) (inside : state ∈ C) (matched : m.emptyMatch state = some k) :
    (m.target k).getD state ∈ C := by
  obtain ⟨next, member, l, again, rfl⟩ := trap state inside
  obtain rfl := Option.some.inj (matched.symm.trans again)
  exact member

theorem Trap.matches (trap : m.Trap C) (inside : state ∈ C) : ∃ k, m.emptyMatch state = some k := by
  obtain ⟨_, _, k, matched, _⟩ := trap state inside
  exact ⟨k, matched⟩

/-! ### One chain -/

variable {visited : List Nat} {next : Nat}

theorem follow_stays (stays : m.target k = none) : m.follow visited state k = ⟨visited, some state⟩ := by
  rw [follow]
  split
  · rfl
  · rename_i goes
    rw [stays] at goes
    cases goes

theorem follow_eq (goes : m.target k = some next) : m.follow visited state k =
    if visited.contains next then ⟨visited, some next⟩
    else match m.emptyMatch next with
      | none => ⟨next :: visited, none⟩
      | some k => m.follow (next :: visited) next k := by
  rw [follow]
  split
  · rename_i stays
    rw [goes] at stays
    cases stays
  · rename_i other same
    obtain rfl := Option.some.inj (goes.symm.trans same)
    by_cases fresh : visited.contains next = false
    · rw [dif_pos fresh, if_neg (Bool.eq_false_iff.mp fresh)]
      split
      · rename_i leaves
        rw [leaves]
      · rename_i found
        rw [found]
    · rw [dif_neg fresh, if_pos (eq_true_of_ne_false fresh)]

/-- A chain does not leave a trap. -/
theorem follow_closes (trap : m.Trap C) (visited : List Nat) (state : Nat) (k : Kind) (inside : state ∈ C)
    (matched : m.emptyMatch state = some k) : (m.follow visited state k).closing.isSome = true := by
  induction visited, state, k using follow.induct m with
  | case1 visited state k stays =>
    rw [follow_stays stays]
    rfl
  | case2 visited state k next goes fresh leaves =>
    have there := trap.target inside matched
    rw [goes, Option.getD_some] at there
    obtain ⟨_, again⟩ := trap.matches there
    rw [leaves] at again
    cases again
  | case3 visited state k next goes fresh l found ih =>
    have there := trap.target inside matched
    rw [goes, Option.getD_some] at there
    rw [follow_eq goes, if_neg (Bool.eq_false_iff.mp fresh), found]
    exact ih there found
  | case4 visited state k next goes old =>
    rw [follow_eq goes, if_pos (eq_true_of_ne_false old)]
    rfl

/-- A chain that leaves the empty matches has not been in a trap. -/
theorem follow_avoids (trap : m.Trap C) (visited : List Nat) (state : Nat) (k : Kind)
    (opens : (m.follow visited state k).closing = none) (before : ∀ s ∈ visited, s ∉ C) :
    ∀ s ∈ (m.follow visited state k).visited, s ∉ C := by
  induction visited, state, k using follow.induct m with
  | case1 visited state k stays =>
    rw [follow_stays stays] at opens
    cases opens
  | case2 visited state k next goes fresh leaves =>
    rw [follow_eq goes, if_neg (Bool.eq_false_iff.mp fresh), leaves]
    refine List.forall_mem_cons.mpr ⟨fun inside => ?_, before⟩
    obtain ⟨_, matched⟩ := trap.matches inside
    rw [leaves] at matched
    cases matched
  | case3 visited state k next goes fresh l found ih =>
    rw [follow_eq goes, if_neg (Bool.eq_false_iff.mp fresh), found] at opens ⊢
    refine ih opens (List.forall_mem_cons.mpr ⟨fun inside => ?_, before⟩)
    have closes := follow_closes trap (next :: visited) next l inside found
    rw [opens] at closes
    cases closes
  | case4 visited state k next goes old =>
    rw [follow_eq goes, if_pos (eq_true_of_ne_false old)] at opens
    cases opens

/-- A chain keeps the states it has been through. -/
theorem visited_follow (visited : List Nat) (state : Nat) (k : Kind) :
    ∀ s ∈ visited, s ∈ (m.follow visited state k).visited := by
  induction visited, state, k using follow.induct m with
  | case1 visited state k stays =>
    rw [follow_stays stays]
    exact fun s member => member
  | case2 visited state k next goes fresh leaves =>
    rw [follow_eq goes, if_neg (Bool.eq_false_iff.mp fresh), leaves]
    exact fun s member => List.mem_cons_of_mem next member
  | case3 visited state k next goes fresh l found ih =>
    rw [follow_eq goes, if_neg (Bool.eq_false_iff.mp fresh), found]
    exact fun s member => ih s (List.mem_cons_of_mem next member)
  | case4 visited state k next goes old =>
    rw [follow_eq goes, if_pos (eq_true_of_ne_false old)]
    exact fun s member => member

/-! ### The search -/

/-- Whatever a walk has been through and lies in a trap loops. -/
def Covers (C : Set Nat) (found : EmptyLoops) : Prop := ∀ s ∈ found.done, s ∈ C → s ∈ found.looping

theorem searchFrom_covers (trap : m.Trap C) {found : EmptyLoops} (covers : Covers C found) (start : Nat) :
    Covers C (m.searchFrom found start) ∧ (∀ s ∈ found.done, s ∈ (m.searchFrom found start).done) ∧
      (start ∈ C → start ∈ (m.searchFrom found start).done) := by
  unfold searchFrom
  cases matched : m.emptyMatch start with
  | none =>
    refine ⟨covers, fun s member => member, fun inside => ?_⟩
    obtain ⟨_, again⟩ := trap.matches inside
    rw [matched] at again
    cases again
  | some k =>
    dsimp only
    split
    · rename_i known
      exact ⟨covers, fun s member => member, fun _ => List.contains_iff_mem.mp known⟩
    · have here : start ∈ (m.chainFrom start k).visited := visited_follow [start] start k start List.mem_cons_self
      split
      · rename_i opens
        refine ⟨fun s member inside => ?_, fun s member => List.mem_append_right _ member,
          fun _ => List.mem_append_left _ here⟩
        have apart : start ∉ C := fun inside => by
          have closes := follow_closes trap [start] start k inside matched
          rw [show (m.follow [start] start k).closing = none from opens] at closes
          cases closes
        have avoids := follow_avoids trap [start] start k opens (by simpa using apart)
        rcases List.mem_append.mp member with new | old
        · exact absurd inside (avoids s new)
        · exact covers s old inside
      · refine ⟨fun s member inside => ?_, fun s member => List.mem_append_right _ member,
          fun _ => List.mem_append_left _ here⟩
        rcases List.mem_append.mp member with new | old
        · exact List.mem_append_left _ new
        · exact List.mem_append_right _ (covers s old inside)

/-- The search finds every state of every trap. -/
theorem search_finds (trap : m.Trap C) {s : Nat} (inside : s ∈ C) : s ∈ m.search.looping := by
  have all : ∀ (starts : List Nat) (found : EmptyLoops), Covers C found → Covers C (starts.foldl m.searchFrom found) ∧
      (∀ s ∈ found.done, s ∈ (starts.foldl m.searchFrom found).done) ∧
      ∀ s ∈ starts, s ∈ C → s ∈ (starts.foldl m.searchFrom found).done := by
    intro starts
    induction starts with
    | nil => exact fun found covers => ⟨covers, fun s member => member, fun s none => nomatch none⟩
    | cons start rest ih =>
      intro found covers
      obtain ⟨coversHere, kept, here⟩ := searchFrom_covers trap covers start
      obtain ⟨coversRest, keptRest, later⟩ := ih _ coversHere
      refine ⟨coversRest, fun s member => keptRest s (kept s member), List.forall_mem_cons.mpr ⟨?_, later⟩⟩
      exact fun inside => keptRest start (here inside)
  obtain ⟨covers, _, visited⟩ := all (List.range m.states.length) {} fun s none => nomatch none
  obtain ⟨k, matched⟩ := trap.matches inside
  exact covers s (visited s (List.mem_range.mpr (lt_of_emptyMatch matched)) inside) inside

/-! ### Chains of matches at one place -/

/-- Empty matches have led through these states to `current`, the last one first. -/
def Linked (m : EmptyMatching) : (current : Nat) → List Nat → Prop
  | _, [] => True
  | current, last :: rest => m.Leads last current ∧ m.Linked last rest

/-- A state that empty matches lead back to lies in a trap. -/
theorem Linked.trap {current : Nat} {states : List Nat} (linked : m.Linked current states) (back : current ∈ states) :
    ∃ C, m.Trap C ∧ current ∈ C := by
  -- From each of the states one comes to `current` through states of the list.
  have leads : ∀ (states : List Nat) (last : Nat), m.Linked last states → ∀ s ∈ states,
      ∃ next, m.Leads s next ∧ (next = last ∨ next ∈ states) := by
    intro states
    induction states with
    | nil => exact fun last _ s none => nomatch none
    | cons first rest ih =>
      intro last linked s member
      rcases List.mem_cons.mp member with rfl | later
      · exact ⟨last, linked.1, .inl rfl⟩
      · obtain ⟨next, step, same | inRest⟩ := ih first linked.2 s later
        · exact ⟨next, step, .inr (List.mem_cons.mpr (.inl same))⟩
        · exact ⟨next, step, .inr (List.mem_cons_of_mem _ inRest)⟩
  refine ⟨{s | s ∈ states}, fun s member => ?_, back⟩
  obtain ⟨next, step, same | inside⟩ := leads states current linked s member
  · exact ⟨next, same ▸ back, step⟩
  · exact ⟨next, inside, step⟩

end EmptyMatching

/-! ### Tokenizers -/

variable {g : Grammar} {options : GenerationOptions} {made : Generation} {text : List Char} {m : Match} {state : Nat}

namespace Assembly

theorem emptyMatch_of_state (passes : g.Passes options) {s : LexicalState}
    (present : (tokenizer g options (ofGrammar g options)).states[state]? = some s) {k : Kind}
    (isEmptyMatch : s.emptyMatch = some k) (noWildcard : s.wildcard = none) :
    (ofGrammar g options).emptyMatching.emptyMatch state = some k := by
  have inside : state < g.states.length := by
    have lower := (List.getElem?_eq_some_iff.mp present).1
    rwa [length_tokenizer_states passes] at lower
  obtain ⟨offset, update, placed⟩ := (ofGrammar_progress passes).placed state inside
  obtain ⟨assembled, there, isState⟩ := placed.state
  obtain rfl := Option.some.inj (present.symm.trans (tokenizer_state there))
  have known : assembled.emptyMatch = some k := isEmptyMatch
  have noneThere : assembled.wildcard = none := noWildcard
  have isToken : (k != Kind.endOfInput) = true := by
    rw [isState.emptyMatch] at known
    exact (Option.filter_eq_some_iff.mp known).2
  have listed : (ofGrammar g options).emptyMatching.states[state]? = some assembled := there
  unfold EmptyMatching.emptyMatch
  rw [listed]
  show (do
    let k ← assembled.emptyMatch
    if assembled.wildcard.isNone && k != Kind.endOfInput then some k else none) = some k
  rw [known, noneThere]
  exact if_pos isToken

/-- What a tokenizer does on an empty match is what the search for loops has looked at. -/
theorem emptyMatch_of_longestMatch (passes : g.Passes options) (unread : text ≠ [])
    (found : (tokenizer g options (ofGrammar g options)).longestMatch state text = .ok (some m)) (empty : m.length = 0) :
    (ofGrammar g options).emptyMatching.emptyMatch state = some m.kind := by
  obtain ⟨s, offers, present, offered, best⟩ := Tokenizer.longestMatch_ok found
  obtain ⟨_, anyChar, origin⟩ := Tokenizer.offers_ok offered
  obtain ⟨member, longest⟩ := Match.best_some best
  have noWildcard : s.wildcard = none := by
    cases wildcard : s.wildcard with
    | none => rfl
    | some k =>
      have longer := longest _ (anyChar unread k wildcard)
      rw [empty] at longer
      exact absurd longer Nat.one_ne_zero.pos.not_ge
  have isEmptyMatch : s.emptyMatch = some m.kind := by
    rcases origin m member with ⟨_, same⟩ | ⟨_, one, _⟩ | ran | ⟨c, e, entered, ms, ran, inside⟩
    · exact same
    · omega
    · have := (Tokenizer.runFrom_length ran).1
      omega
    · have some : e.chars ≠ [] := (ofGrammar_progress passes).solid state c e entered
      have positive := List.length_pos_iff.mpr some
      have := (Tokenizer.literalMatches_length ran inside).1
      omega
  exact emptyMatch_of_state passes present isEmptyMatch noWildcard

end Assembly

namespace Tokenizer

variable {t : Tokenizer} {empties : EmptyMatching}

/-- An empty match of the tokenizer is one that the search has looked at, and it leads to the same state. -/
structure Searched (t : Tokenizer) (empties : EmptyMatching) : Prop where
  matches_ : ∀ {state text m}, text ≠ [] → t.longestMatch state text = .ok (some m) → m.length = 0 →
    empties.emptyMatch state = some m.kind
  target : ∀ k, t.nextState? k = empties.target k

theorem Searched.step (searched : t.Searched empties) {s next : Scan} (step : t.Steps s next)
    (linked : empties.Linked s.lexState s.emptyAt) : empties.Linked next.lexState next.emptyAt := by
  obtain ⟨unread, token, advances⟩ := step
  obtain ⟨m, found, rfl⟩ := advance_ok advances
  by_cases empty : m.length = 0
  · simp only [take, empty, if_true]
    exact ⟨⟨m.kind, searched.matches_ unread found empty, by rw [searched.target]⟩, linked⟩
  · simp only [take, empty, if_false]
    trivial

/-- At every place reached the states that have matched the empty text lead to the one that comes next. -/
theorem Searched.reaches (searched : t.Searched empties) {s last : Scan} (reaches : t.Reaches s last)
    (linked : empties.Linked s.lexState s.emptyAt) : empties.Linked last.lexState last.emptyAt := by
  induction reaches with
  | refl => exact linked
  | tail _ step ih => exact searched.step step ih

/-- Getting stuck is coming back to a state in a loop. -/
theorem looping_of_stuck {s : Scan} (linked : empties.Linked s.lexState s.emptyAt) {offset lexState : Nat}
    (fails : t.advance s = .error (.stuck offset lexState)) :
    lexState < empties.states.length ∧ lexState ∈ empties.search.looping := by
  unfold Tokenizer.advance at fails
  split at fails
  · cases fails
  · cases fails
  · split at fails
    · rename_i again
      obtain ⟨rfl, rfl⟩ := ScanFault.stuck.inj (Except.error.inj fails)
      obtain ⟨C, trap, inside⟩ := linked.trap (List.contains_iff_mem.mp again.2)
      obtain ⟨k, matched⟩ := trap.matches inside
      exact ⟨EmptyMatching.lt_of_emptyMatch matched, EmptyMatching.search_finds trap inside⟩
    · cases fails

end Tokenizer

/-- Tokenizing ends within a bound, and if it ends in a loop of empty matches then the tokenizer says so of the lexical
state and of itself. -/
theorem tokenize_ends {g : Grammar} {options : GenerationOptions} {made : Generation}
    (generated : generate g options = .ok made) {text : List Char} (basic : ∀ c ∈ text, c.toNat ≤ Text.lastCode) :
    (∃ rounds, rounds ≤ (text.length + 1) * (made.tokenizer.states.length + 1) ∧
      Tokenizer.Runs made.tokenizer { rest := text } rounds (made.tokenizer.tokenize text)) ∧
    (∀ cause, made.tokenizer.tokenize text ≠ .error (.beyondTable cause)) ∧
    ∀ offset lexState, made.tokenizer.tokenize text = .error (.stuck offset lexState) →
      (∃ s, made.tokenizer.states[lexState]? = some s ∧ s.mayLoop = true) ∧ made.tokenizer.features.mayLoop = true := by
  obtain ⟨passes, tables⟩ := generate_ok generated
  obtain ⟨rounds, few, runs⟩ := made.tokenizer.tokensFrom_runs { rest := text }
  have searched : made.tokenizer.Searched (Assembly.ofGrammar g options).emptyMatching := by
    rw [tables]
    exact ⟨fun unread found empty => Assembly.emptyMatch_of_longestMatch passes unread found empty, fun k => rfl⟩
  refine ⟨⟨rounds, ?_, runs⟩, fun cause fails => ?_, fun offset lexState fails => ?_⟩
  · have visited := unvisited_le made.tokenizer.states.length []
    unfold Tokenizer.roundsLeft at few
    rw [Nat.add_mul]
    dsimp only at few
    omega
  · obtain ⟨last, reaches, _, stops⟩ := Tokenizer.tokensFrom_error_iff.mp fails
    obtain ⟨m, found⟩ := Assembly.longestMatch_returns generated last.lexState fun c member =>
      basic c (reaches.rest.subset member)
    rw [Tokenizer.longestMatch_of_beyondTable stops] at found
    cases found
  · obtain ⟨last, reaches, _, stops⟩ := Tokenizer.tokensFrom_error_iff.mp fails
    have linked := searched.reaches reaches trivial
    obtain ⟨inside, looping⟩ := Tokenizer.looping_of_stuck linked stops
    have present := @Assembly.tokenizer_state g options _ _ _ (List.getElem?_eq_getElem inside)
    rw [tables]
    refine ⟨⟨_, present, List.contains_iff_mem.mpr looping⟩, ?_⟩
    have some : (Assembly.ofGrammar g options).emptyMatching.search.looping.isEmpty = false :=
      List.isEmpty_eq_false_iff_exists_mem.mpr ⟨lexState, looping⟩
    show (!(Assembly.ofGrammar g options).emptyMatching.search.looping.isEmpty) = true
    rw [some]
    rfl

/-- A token that may be empty. -/
def emptyToken : Grammar where
  states := ["DEFAULT"]
  productions := [⟨.token, none, false,
    [⟨.regex ⟨1, none, false, .repetition .unknown (.literal .unknown "a") 0 (some 1)⟩, none, none, .unknown⟩], .unknown⟩]

theorem emptyToken_gets_stuck : ∃ made, generate emptyToken {} = .ok made ∧
    made.tokenizer.tokenize ['b'] = .error (.stuck 0 0) ∧
    (∃ s, made.tokenizer.states[0]? = some s ∧ s.mayLoop = true) ∧ made.tokenizer.features.mayLoop = true := by
  have stuck : (generate emptyToken {}).map (fun made => made.tokenizer.tokenize ['b']) = .ok (.error (.stuck 0 0)) := by
    cbv
  cases generated : generate emptyToken {} with
  | error e =>
    rw [generated] at stuck
    cases stuck
  | ok made =>
    rw [generated] at stuck
    have fails := Except.ok.inj stuck
    have basic : ∀ c ∈ ['b'], c.toNat ≤ Text.lastCode := by simp [Text.lastCode]
    exact ⟨made, rfl, fails, (tokenize_ends generated basic).2.2 0 0 fails⟩

end TokenTables
