import Mathlib.Logic.Relation
import TokenTables.Proofs.Automaton.Expression
import TokenTables.Proofs.Automaton.Gather
import TokenTables.Tokenizer.Scan

/-!
Matches and the loop that takes them. A match read by the automaton is longer than what was read before it, and the
loop ends after a number of rounds that the length of the text and the number of lexical states bound.
-/

namespace TokenTables

/-! ### The best match -/

namespace Match

variable {ms others : List Match} {m other third : Match} {P Q : Match → Prop}

theorem beats_iff : m.beats other = true ↔
    other.length < m.length ∨ m.length = other.length ∧ m.kind ≤ other.kind := by
  simp [Match.beats]

theorem beats_length (beats : m.beats other = true) : other.length ≤ m.length := by
  rcases beats_iff.mp beats with longer | ⟨same, _⟩
  · exact Nat.le_of_lt longer
  · exact Nat.le_of_eq same.symm

theorem beats_refl (m : Match) : m.beats m = true := beats_iff.mpr (.inr ⟨rfl, Nat.le_refl _⟩)

theorem beats_trans (one : m.beats other = true) (two : other.beats third = true) : m.beats third = true := by
  have further := beats_length two
  rcases beats_iff.mp one with longer | ⟨same, earlier⟩
  · exact beats_iff.mpr (.inl (Nat.lt_of_le_of_lt further longer))
  · rcases beats_iff.mp two with longer | ⟨sameToo, earlierToo⟩
    · exact beats_iff.mpr (.inl (same ▸ longer))
    · exact beats_iff.mpr (.inr ⟨same.trans sameToo, Nat.le_trans earlier earlierToo⟩)

theorem beats_total : m.beats other = true ∨ other.beats m = true := by
  rcases Nat.lt_trichotomy m.length other.length with shorter | same | longer
  · exact .inr (beats_iff.mpr (.inl shorter))
  · rcases Nat.le_total m.kind other.kind with earlier | later
    · exact .inl (beats_iff.mpr (.inr ⟨same, earlier⟩))
    · exact .inr (beats_iff.mpr (.inr ⟨same.symm, later⟩))
  · exact .inl (beats_iff.mpr (.inl longer))

theorem beats_antisymm (one : m.beats other = true) (two : other.beats m = true) : m = other := by
  have same := Nat.le_antisymm (beats_length two) (beats_length one)
  have earlier := (beats_iff.mp one).resolve_left (by omega)
  have later := (beats_iff.mp two).resolve_left (by omega)
  cases m
  cases other
  exact congr (congrArg Match.mk (Nat.le_antisymm earlier.2 later.2)) same

/-- The match preferred is one of the two, and it beats both. -/
theorem prefer_some (best : Option Match) (m : Match) : ∃ first, prefer best m = some first ∧
    (best = some first ∨ first = m) ∧ first.beats m = true ∧ ∀ other, best = some other → first.beats other = true := by
  cases best with
  | none => exact ⟨m, rfl, .inr rfl, beats_refl m, fun other none => nomatch none⟩
  | some first =>
    unfold prefer
    by_cases beats : first.beats m = true
    · refine ⟨first, if_pos beats, .inl rfl, beats, fun other same => ?_⟩
      obtain rfl := Option.some.inj same
      exact beats_refl first
    · refine ⟨m, if_neg beats, .inr rfl, beats_refl m, fun other same => ?_⟩
      obtain rfl := Option.some.inj same
      exact beats_total.resolve_left beats

/-- The best of some matches is one of them and beats them all. -/
theorem best_beats (found : best ms = some m) : m ∈ ms ∧ ∀ other ∈ ms, m.beats other = true := by
  have all : ∀ (ms : List Match) (start : Option Match), ms.foldl prefer start = some m →
      (start = some m ∨ m ∈ ms) ∧ (∀ other ∈ ms, m.beats other = true) ∧
        ∀ other, start = some other → m.beats other = true := by
    intro ms
    induction ms with
    | nil =>
      intro start same
      refine ⟨.inl same, by simp, fun other again => ?_⟩
      obtain rfl := Option.some.inj (again.symm.trans same)
      exact beats_refl other
    | cons first rest ih =>
      intro start same
      obtain ⟨preferred, isPreferred, origin, atLeast, atLeastStart⟩ := prefer_some start first
      obtain ⟨member, later, before⟩ := ih _ same
      have above := before preferred isPreferred
      refine ⟨?_, List.forall_mem_cons.mpr ⟨beats_trans above atLeast, later⟩,
        fun other isStart => beats_trans above (atLeastStart other isStart)⟩
      rcases member with isFirst | inRest
      · obtain rfl := Option.some.inj (isPreferred.symm.trans isFirst)
        rcases origin with same | rfl
        · exact .inl same
        · exact .inr List.mem_cons_self
      · exact .inr (List.mem_cons_of_mem _ inRest)
  obtain ⟨member, atLeast, _⟩ := all ms none found
  exact ⟨member.resolve_left (by simp), atLeast⟩

/-- The best of some matches is one of them, and none is longer. -/
theorem best_some (found : best ms = some m) : m ∈ ms ∧ ∀ other ∈ ms, other.length ≤ m.length :=
  ⟨(best_beats found).1, fun other member => beats_length ((best_beats found).2 other member)⟩

theorem best_none_iff : best ms = none ↔ ms = [] := by
  constructor
  · intro none
    cases ms with
    | nil => rfl
    | cons first rest =>
      have some : ∀ (ms : List Match) (first : Match), ∃ m, ms.foldl prefer (some first) = some m := by
        intro ms
        induction ms with
        | nil => exact fun first => ⟨first, rfl⟩
        | cons next rest ih =>
          intro first
          obtain ⟨preferred, isPreferred, _⟩ := prefer_some (some first) next
          rw [List.foldl_cons, isPreferred]
          exact ih preferred
      obtain ⟨m, found⟩ := some rest first
      exact nomatch none.symm.trans found
  · rintro rfl
    rfl

theorem best_of_mem (member : m ∈ ms) : ∃ first, best ms = some first :=
  Option.ne_none_iff_exists'.mp fun none => List.ne_nil_of_mem member (best_none_iff.mp none)

/-- The best of some matches is the one of them that beats them all. -/
theorem best_eq_some_iff : best ms = some m ↔ m ∈ ms ∧ ∀ other ∈ ms, m.beats other = true := by
  refine ⟨best_beats, fun ⟨member, beats⟩ => ?_⟩
  obtain ⟨first, found⟩ := best_of_mem member
  obtain ⟨inside, above⟩ := best_beats found
  rw [found, beats_antisymm (above m member) (beats first inside)]

/-- The matches are of a sort, and whatever is of this sort is beaten by one of them. -/
structure Represent (ms : List Match) (P : Match → Prop) : Prop where
  sound : ∀ m ∈ ms, P m
  beaten : ∀ m, P m → ∃ first ∈ ms, first.beats m = true

/-- Lists that represent the same matches have the same best one. -/
theorem Represent.best_eq (one : Represent ms P) (two : Represent others P) : best ms = best others := by
  cases found : best ms with
  | none =>
    have empty := best_none_iff.mp found
    have none : others = [] := by
      rw [List.eq_nil_iff_forall_not_mem]
      intro m member
      obtain ⟨first, inside, _⟩ := one.beaten m (two.sound m member)
      rw [empty] at inside
      cases inside
    rw [none]
    rfl
  | some m =>
    obtain ⟨member, atLeast⟩ := best_beats found
    obtain ⟨second, inside, above⟩ := two.beaten m (one.sound m member)
    cases foundOther : best others with
    | none =>
      rw [best_none_iff.mp foundOther] at inside
      cases inside
    | some other =>
      obtain ⟨memberOther, atLeastOther⟩ := best_beats foundOther
      obtain ⟨first, insideOne, aboveOne⟩ := one.beaten other (two.sound other memberOther)
      rw [beats_antisymm (beats_trans (atLeast first insideOne) aboveOne) (beats_trans (atLeastOther second inside) above)]

/-- The best match depends on nothing but which matches there are. -/
theorem best_congr (same : ∀ m, m ∈ others ↔ m ∈ ms) : best others = best ms :=
  Represent.best_eq (P := (· ∈ ms)) ⟨fun m member => (same m).mp member, fun m member => ⟨m, (same m).mpr member, beats_refl m⟩⟩
    ⟨fun _ member => member, fun m member => ⟨m, member, beats_refl m⟩⟩

theorem Represent.congr (represent : Represent ms P) (same : ∀ m, P m ↔ Q m) : Represent ms Q :=
  ⟨fun m member => (same m).mp (represent.sound m member), fun m holds => represent.beaten m ((same m).mpr holds)⟩

/-- More matches may bring more that is represented. -/
theorem Represent.extend (represent : Represent ms P) (sound : ∀ m ∈ others, P m ∨ Q m)
    (beaten : ∀ m, Q m → ∃ first ∈ others, first.beats m = true) : Represent (ms ++ others) fun m => P m ∨ Q m where
  sound m member := (List.mem_append.mp member).elim (fun old => .inl (represent.sound m old)) (sound m)
  beaten m holds := by
    rcases holds with old | new
    · obtain ⟨first, inside, beats⟩ := represent.beaten m old
      exact ⟨first, List.mem_append_left others inside, beats⟩
    · obtain ⟨first, inside, beats⟩ := beaten m new
      exact ⟨first, List.mem_append_right ms inside, beats⟩

theorem Represent.append (one : Represent ms P) (two : Represent others Q) :
    Represent (ms ++ others) fun m => P m ∨ Q m :=
  one.extend (fun m member => .inr (two.sound m member)) two.beaten

end Match

namespace Tokenizer

open Automaton (BeyondTable EntryName except_bind_ok mapM_eq_ok_iff)

variable {t : Tokenizer} {text : List Char} {m : Match}

/-- A match found on the way ends within the text read. -/
theorem run_length {consumed : Nat} {active : List EntryName} {last : Option Match}
    (ran : t.run consumed active last text = .ok (some m)) :
    last = some m ∨ consumed < m.length ∧ m.length ≤ consumed + text.length := by
  induction text generalizing consumed active last with
  | nil => exact .inl (Except.ok.inj ran)
  | cons c rest ih =>
    unfold run at ran
    obtain ⟨⟨kind, next⟩, _, ran⟩ := except_bind_ok ran
    dsimp only at ran
    have here : (kind.map fun k => (⟨k, consumed + 1⟩ : Match)).or last = some m →
        last = some m ∨ consumed < m.length ∧ m.length ≤ consumed + (c :: rest).length := by
      cases kind with
      | none => exact .inl
      | some k =>
        intro same
        obtain rfl := Option.some.inj same
        exact .inr ⟨Nat.lt_succ_self _, by simp⟩
    split at ran
    · exact here (Except.ok.inj ran)
    · rcases ih ran with before | ⟨low, high⟩
      · exact here before
      · exact .inr ⟨by omega, by simp only [List.length_cons]; omega⟩

theorem runFrom_length {name : Option EntryName} {consumed : Nat} (ran : t.runFrom name consumed text = .ok (some m)) :
    consumed < m.length ∧ m.length ≤ consumed + (text.drop consumed).length := by
  cases name with
  | none => cases ran
  | some n => exact (run_length ran).resolve_left (by simp)

theorem beginsButForCase_length {text start : List Char} (begins : Text.beginsButForCase text start = true) :
    start.length ≤ text.length := by
  induction start generalizing text with
  | nil => exact Nat.zero_le _
  | cons s start ih =>
    cases text with
    | nil => simp [Text.beginsButForCase] at begins
    | cons c text =>
      simp only [Text.beginsButForCase, Bool.and_eq_true] at begins
      exact Nat.succ_le_succ (ih begins.2)

theorem begins_length {e : Candidate} (begins : e.begins text = true) : e.chars.length ≤ text.length := by
  unfold Candidate.begins at begins
  split at begins
  · exact beginsButForCase_length begins
  · exact (List.isPrefixOf_iff_prefix.mp begins).length_le

/-- A match by way of a literal is as long as the literal or longer, and ends within the text. -/
theorem literalMatches_length {lexState : Nat} {e : Candidate} {found : List Match}
    (ran : t.literalMatches lexState text e = .ok found) (member : m ∈ found) :
    e.chars.length ≤ m.length ∧ m.length ≤ text.length := by
  unfold literalMatches at ran
  split at ran
  · rename_i begins
    have fits := begins_length begins
    obtain ⟨longer, run, ran⟩ := except_bind_ok ran
    obtain rfl := Except.ok.inj ran
    rcases List.mem_cons.mp member with rfl | beyond
    · exact ⟨Nat.le_refl _, fits⟩
    · obtain rfl := Option.mem_toList.mp beyond
      obtain ⟨low, high⟩ := runFrom_length run
      rw [List.length_drop] at high
      omega
  · obtain rfl := Except.ok.inj ran
    cases member

theorem mem_mapM {ε α β : Type} {f : α → Except ε β} {xs : List α} {ys : List β} (ran : xs.mapM f = .ok ys) {y : β}
    (member : y ∈ ys) : ∃ x ∈ xs, f x = .ok y := by
  have image : Except.ok y ∈ ys.map (Except.ok : β → Except ε β) := List.mem_map_of_mem member
  rw [← mapM_eq_ok_iff.mp ran] at image
  exact List.mem_map.mp image

theorem mapM_ok_of_mem {ε α β : Type} {f : α → Except ε β} {xs : List α} {ys : List β} (ran : xs.mapM f = .ok ys) {x : α}
    (member : x ∈ xs) : ∃ y ∈ ys, f x = .ok y := by
  have image : f x ∈ xs.map f := List.mem_map_of_mem member
  rw [mapM_eq_ok_iff.mp ran] at image
  obtain ⟨y, inside, same⟩ := List.mem_map.mp image
  exact ⟨y, inside, same.symm⟩

/-- What a lexical state offers, by where it comes from. -/
theorem offers_ok {lexState : Nat} {s : LexicalState} {found : List Match}
    (ran : t.offers lexState s text = .ok found) : (∀ k, s.emptyMatch = some k → ⟨k, 0⟩ ∈ found) ∧
      (text ≠ [] → ∀ k, s.wildcard = some k → ⟨k, 1⟩ ∈ found) ∧
      ∀ m ∈ found, m.length = 0 ∧ s.emptyMatch = some m.kind ∨
        text ≠ [] ∧ m.length = 1 ∧ s.wildcard = some m.kind ∨
        t.runFrom s.initial 0 text = .ok (some m) ∨
        ∃ c, ∃ e ∈ t.literals.beginningWith lexState c, ∃ ms, t.literalMatches lexState text e = .ok ms ∧ m ∈ ms := by
  unfold offers at ran
  have empties : ∀ m : Match, m ∈ (s.emptyMatch.map fun k => (⟨k, 0⟩ : Match)).toList →
      m.length = 0 ∧ s.emptyMatch = some m.kind := by
    intro m member
    obtain ⟨k, known, rfl⟩ := Option.map_eq_some_iff.mp (Option.mem_toList.mp member)
    exact ⟨rfl, known⟩
  cases text with
  | nil =>
    obtain rfl := Except.ok.inj ran
    refine ⟨fun k known => by simp [known], fun read => absurd rfl read, fun m member => .inl (empties m member)⟩
  | cons c rest =>
    obtain ⟨automaton, run, ran⟩ := except_bind_ok ran
    obtain ⟨literals, all, ran⟩ := except_bind_ok ran
    obtain rfl := Except.ok.inj ran
    refine ⟨fun k known => by simp [known], fun _ k known => by simp [known], fun m member => ?_⟩
    rcases List.mem_append.mp member with first | inLiterals
    · rcases List.mem_append.mp first with first | inAutomaton
      · rcases List.mem_append.mp first with inEmpty | inAny
        · exact .inl (empties m inEmpty)
        · obtain ⟨k, known, rfl⟩ := Option.map_eq_some_iff.mp (Option.mem_toList.mp inAny)
          exact .inr (.inl ⟨List.cons_ne_nil c rest, rfl, known⟩)
      · obtain rfl := Option.mem_toList.mp inAutomaton
        exact .inr (.inr (.inl run))
    · obtain ⟨ms, inside, member⟩ := List.mem_flatten.mp inLiterals
      obtain ⟨e, entered, same⟩ := mem_mapM all inside
      exact .inr (.inr (.inr ⟨c, e, entered, ms, same, member⟩))

theorem longestMatch_ok {lexState : Nat} (ran : t.longestMatch lexState text = .ok (some m)) :
    ∃ s found, t.states[lexState]? = some s ∧ t.offers lexState s text = .ok found ∧ Match.best found = some m := by
  unfold longestMatch at ran
  cases present : t.states[lexState]? with
  | none =>
    rw [present] at ran
    cases ran
  | some s =>
    rw [present] at ran
    dsimp only at ran
    cases all : t.offers lexState s text with
    | error e =>
      rw [all] at ran
      cases ran
    | ok found =>
      rw [all] at ran
      exact ⟨s, found, rfl, all, Except.ok.inj ran⟩

/-- What is offered lies within the text. -/
theorem offers_length {lexState : Nat} {s : LexicalState} {found : List Match}
    (ran : t.offers lexState s text = .ok found) (member : m ∈ found) : m.length ≤ text.length := by
  rcases (offers_ok ran).2.2 m member with ⟨zero, _⟩ | ⟨read, one, _⟩ | run | ⟨c, e, _, ms, run, inside⟩
  · omega
  · have := List.length_pos_iff.mpr read
    omega
  · have := (runFrom_length run).2
    simpa using this
  · exact (literalMatches_length run inside).2

/-- A match lies within the text. -/
theorem longestMatch_length {lexState : Nat} (ran : t.longestMatch lexState text = .ok (some m)) :
    m.length ≤ text.length := by
  obtain ⟨s, found, _, all, best⟩ := longestMatch_ok ran
  exact offers_length all (Match.best_some best).1

/-! ### Rounds -/

/-- One round of the loop. -/
def Steps (t : Tokenizer) (s next : Scan) : Prop := s.rest ≠ [] ∧ ∃ token, t.advance s = .ok (token, next)

/-- Some rounds of the loop. -/
abbrev Reaches (t : Tokenizer) : Scan → Scan → Prop := Relation.ReflTransGen (Steps t)

theorem advance_takes {s next : Scan} {token : Option Token} (advances : t.advance s = .ok (token, next)) :
    ∃ m, t.longestMatch s.lexState s.rest = .ok (some m) ∧ t.take s m = (token, next) := by
  unfold advance at advances
  split at advances
  · cases advances
  · cases advances
  · rename_i m found
    split at advances
    · cases advances
    · exact ⟨m, found, Except.ok.inj advances⟩

theorem advance_ok {s next : Scan} {token : Option Token} (advances : t.advance s = .ok (token, next)) :
    ∃ m, t.longestMatch s.lexState s.rest = .ok (some m) ∧ next = (t.take s m).2 := by
  obtain ⟨m, found, taken⟩ := advance_takes advances
  exact ⟨m, found, by rw [taken]⟩

theorem longestMatch_of_beyondTable {s : Scan} {cause : BeyondTable}
    (fails : t.advance s = .error (.beyondTable cause)) : t.longestMatch s.lexState s.rest = .error cause := by
  unfold Tokenizer.advance at fails
  split at fails
  · rename_i failed
    obtain rfl := ScanFault.beyondTable.inj (Except.error.inj fails)
    exact failed
  · cases fails
  · split at fails
    · cases fails
    · cases fails

/-- The text left to read is an end of the text there was. -/
theorem Reaches.rest {s last : Scan} (reaches : t.Reaches s last) : last.rest <:+ s.rest := by
  induction reaches with
  | refl => exact List.suffix_refl _
  | tail _ step ih =>
    obtain ⟨_, token, advances⟩ := step
    obtain ⟨m, _, rfl⟩ := advance_ok advances
    exact (List.drop_suffix _ _).trans ih

/-- How many rounds are left at most. -/
def roundsLeft (t : Tokenizer) (s : Scan) : Nat :=
  s.rest.length * (t.states.length + 1) + unvisited t.states.length s.emptyAt

theorem Steps.roundsLeft_lt {s next : Scan} (step : t.Steps s next) : t.roundsLeft next < t.roundsLeft s := by
  obtain ⟨unread, token, advances⟩ := step
  have few := unvisited_le t.states.length next.emptyAt
  unfold roundsLeft
  rcases Prod.lex_iff.mp (advance_decreases unread advances) with shorter | ⟨same, fewer⟩
  · have product : (next.rest.length + 1) * (t.states.length + 1) ≤ s.rest.length * (t.states.length + 1) :=
      Nat.mul_le_mul_right _ shorter
    rw [Nat.add_mul] at product
    omega
  · have length : next.rest.length = s.rest.length := same
    have less : unvisited t.states.length next.emptyAt < unvisited t.states.length s.emptyAt := fewer
    rw [length]
    omega

theorem tokensFrom_read {s : Scan} (read : s.rest = []) : t.tokensFrom s = .ok [Token.endOfInput] := by
  rw [tokensFrom, dif_pos read]

theorem tokensFrom_error {s : Scan} {e : ScanFault} (unread : s.rest ≠ []) (fails : t.advance s = .error e) :
    t.tokensFrom s = .error e := by
  rw [tokensFrom, dif_neg unread]
  split
  · rename_i again
    exact congrArg _ (Except.error.inj (again.symm.trans fails))
  · rename_i again
    rw [fails] at again
    cases again

theorem tokensFrom_ok {s next : Scan} {token : Option Token} (unread : s.rest ≠ [])
    (advances : t.advance s = .ok (token, next)) : t.tokensFrom s = (token.toList ++ ·) <$> t.tokensFrom next := by
  rw [tokensFrom, dif_neg unread]
  split
  · rename_i again
    rw [advances] at again
    cases again
  · rename_i again
    obtain ⟨rfl, rfl⟩ := Prod.mk.inj (Except.ok.inj (advances.symm.trans again))
    rfl

/-- Tokenizers that find the same matches where the loop comes to, and handle kinds alike, give the same tokens. -/
theorem tokensFrom_congr {u : Tokenizer} (dispositions : ∀ k, u.disposition? k = t.disposition? k)
    (nextStates : ∀ k, u.nextState? k = t.nextState? k) {s : Scan}
    (matches_ : ∀ last, t.Reaches s last → u.longestMatch last.lexState last.rest = t.longestMatch last.lexState last.rest) :
    u.tokensFrom s = t.tokensFrom s := by
  have takes : u.take = t.take := by
    funext s m
    unfold take settle
    rw [dispositions, nextStates]
  have advances : ∀ last, t.Reaches s last → u.advance last = t.advance last := by
    intro last reaches
    unfold advance
    rw [matches_ last reaches, takes]
  induction s using tokensFrom.induct t with
  | case1 s read => rw [tokensFrom_read read, tokensFrom_read read]
  | case2 s unread e fails =>
    rw [tokensFrom_error unread fails, tokensFrom_error unread ((advances s .refl).trans fails)]
  | case3 s unread token next found ih =>
    have step : t.Steps s next := ⟨unread, token, found⟩
    rw [tokensFrom_ok unread found, tokensFrom_ok unread ((advances s .refl).trans found),
      ih (fun last reaches => matches_ last (.head step reaches)) fun last reaches => advances last (.head step reaches)]

/-- The loop goes from a place on through a number of rounds to a result. -/
inductive Runs (t : Tokenizer) : Scan → Nat → Except ScanFault (List Token) → Prop where
  | done {s} (read : s.rest = []) : Runs t s 0 (.ok [Token.endOfInput])
  | stop {s e} (unread : s.rest ≠ []) (fails : t.advance s = .error e) : Runs t s 1 (.error e)
  | round {s token next rounds result} (unread : s.rest ≠ []) (advances : t.advance s = .ok (token, next))
    (after : Runs t next rounds result) : Runs t s (rounds + 1) ((token.toList ++ ·) <$> result)

/-- The loop ends. -/
theorem tokensFrom_runs (s : Scan) : ∃ rounds, rounds ≤ t.roundsLeft s + 1 ∧ Runs t s rounds (t.tokensFrom s) := by
  induction s using tokensFrom.induct t with
  | case1 s read =>
    rw [tokensFrom_read read]
    exact ⟨0, Nat.zero_le _, .done read⟩
  | case2 s unread e fails =>
    rw [tokensFrom_error unread fails]
    exact ⟨1, Nat.succ_le_succ (Nat.zero_le _), .stop unread fails⟩
  | case3 s unread token next advances ih =>
    obtain ⟨rounds, few, after⟩ := ih
    have less := Steps.roundsLeft_lt ⟨unread, token, advances⟩
    rw [tokensFrom_ok unread advances]
    exact ⟨rounds + 1, by omega, .round unread advances after⟩

/-- A failure comes from a round, and a round that fails stops the loop. -/
theorem tokensFrom_error_iff {s : Scan} {e : ScanFault} : t.tokensFrom s = .error e ↔
    ∃ last, t.Reaches s last ∧ last.rest ≠ [] ∧ t.advance last = .error e := by
  constructor
  · intro fails
    induction s using tokensFrom.induct t with
    | case1 s read =>
      rw [tokensFrom_read read] at fails
      cases fails
    | case2 s unread e' stops =>
      rw [tokensFrom_error unread stops] at fails
      obtain rfl := Except.error.inj fails
      exact ⟨s, .refl, unread, stops⟩
    | case3 s unread token next advances ih =>
      rw [tokensFrom_ok unread advances] at fails
      have later : t.tokensFrom next = .error e := by
        cases rest : t.tokensFrom next with
        | ok tokens =>
          rw [rest] at fails
          cases fails
        | error e' =>
          rw [rest] at fails
          exact congrArg _ (Except.error.inj fails)
      obtain ⟨last, reaches, unreadLast, stops⟩ := ih later
      exact ⟨last, .head ⟨unread, token, advances⟩ reaches, unreadLast, stops⟩
  · rintro ⟨last, reaches, unread, stops⟩
    induction reaches using Relation.ReflTransGen.head_induction_on with
    | refl => exact tokensFrom_error unread stops
    | head step _ ih =>
      obtain ⟨unreadHere, token, advances⟩ := step
      rw [tokensFrom_ok unreadHere advances, ih]
      rfl

end Tokenizer

end TokenTables
