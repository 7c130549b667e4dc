import TokenTables.Proofs.Grammar.Rules
import TokenTables.Proofs.KindSet
import TokenTables.Proofs.Tokenizer.Destinations

/-!
What the tables by kind know once some rules have been taken in. The lexical states that declare a rule share one slot,
which keeps no destination for the state that the rule leads to. In whatever order they come, the slot tells where the
rule leads from each of them.
-/

namespace TokenTables

/-! ### One rule -/

/-- Whether matches that are treated in one way are in the set kept for another. -/
def Disposition.CountsAs (d kept : Disposition) : Prop := d = kept ∨ d = .special ∧ kept = .skip

/-- What is known of a kind once a lexical state has taken in the rule for it. -/
def KindSlot.taking (s : KindSlot) (g : Grammar) (state : Nat) (r : DeclaredRule) : KindSlot :=
  let declared := { s with regex := some r.regex, ignoreCase := r.ignoreCase, homes := s.homes ++ [state] }
  if r.regex.isPrivate then declared
  else
    { declared with
      disposition := some r.disposition
      nextState := ((KindTables.destination g r.rule).filter (· != state)).or s.nextState
      action := r.rule.liveAction.or s.action }

namespace KindTables

variable {g : Grammar} {k : KindTables} {state : Nat} {r : DeclaredRule} {n : Kind}

/-- The kinds that are treated in some way. -/
def kept (k : KindTables) : Disposition → KindSet
  | .token => k.tokens
  | .skip => k.skipped
  | .more => k.unfinished
  | .special => k.specials

theorem slot_alter {kind : Kind} (inside : kind < k.slots.size) (change : KindSlot → KindSlot) (n : Kind) :
    (k.alter kind change).slot n = if n = kind then change (k.slot n) else k.slot n := by
  unfold slot alter
  rw [Array.getD_eq_getD_getElem?, Array.getD_eq_getD_getElem?, Array.getElem?_modify]
  by_cases same : n = kind
  · subst same
    rw [if_pos rfl, if_pos rfl, Array.getElem?_eq_getElem inside]
    rfl
  · rw [if_neg (Ne.symm same), if_neg same]

theorem size_alter {kind : Kind} {change : KindSlot → KindSlot} : (k.alter kind change).slots.size = k.slots.size :=
  Array.size_modify

theorem slot_sortKind (k : KindTables) (state : Nat) (d : Disposition) (kind n : Kind) :
    (k.sortKind state d kind).slot n = k.slot n := by
  unfold slot
  rw [sortKind_slots]

theorem size_takeDeclared : (k.takeDeclared g state r).slots.size = k.slots.size := by
  unfold takeDeclared takeRule
  dsimp only
  split
  · exact size_alter
  · rw [sortKind_slots]
    exact size_alter.trans size_alter

theorem slot_takeDeclared (inside : r.regex.kind < k.slots.size) (n : Kind) :
    (k.takeDeclared g state r).slot n = if n = r.regex.kind then (k.slot n).taking g state r else k.slot n := by
  have declared : (k.declare state r.ignoreCase r.regex).slot n = _ := slot_alter inside _ n
  have room : r.regex.kind < (k.declare state r.ignoreCase r.regex).slots.size := by
    unfold declare
    rwa [size_alter]
  unfold takeDeclared KindSlot.taking
  dsimp only
  split
  · exact declared
  · unfold takeRule noteRule
    rw [slot_sortKind, slot_alter room, declared]
    split <;> rfl

theorem contains_kept_sortKind {d c : Disposition} {kind : Kind} :
    ((k.sortKind state d kind).kept c).contains n = true ↔ n = kind ∧ d.CountsAs c ∨ (k.kept c).contains n = true := by
  unfold Disposition.CountsAs
  cases d <;> cases c <;> simp [sortKind, kept, KindSet.contains_insert]

theorem contains_kept_takeDeclared {c : Disposition} : ((k.takeDeclared g state r).kept c).contains n = true ↔
    (r.regex.isPrivate = false ∧ r.regex.kind = n ∧ r.disposition.CountsAs c) ∨ (k.kept c).contains n = true := by
  unfold takeDeclared takeRule
  dsimp only
  have declared : (k.declare state r.ignoreCase r.regex).kept c = k.kept c := by cases c <;> rfl
  split
  · rename_i hidden
    rw [declared]
    simp [hidden]
  · rename_i shown
    have noted : ((k.declare state r.ignoreCase r.regex).noteRule g state r.disposition r.rule r.regex.kind).kept c =
        k.kept c := by cases c <;> rfl
    rw [contains_kept_sortKind, noted, eq_comm (a := n)]
    simp [shown]

theorem mem_reachedByMore_takeDeclared {m : Nat} : m ∈ (k.takeDeclared g state r).reachedByMore ↔
    (r.regex.isPrivate = false ∧ r.disposition = .more ∧
      ((k.takeDeclared g state r).slot r.regex.kind).nextState.getD state = m) ∨ m ∈ k.reachedByMore := by
  unfold takeDeclared takeRule
  dsimp only
  split
  · rename_i hidden
    simp [hidden, declare, alter]
  · rename_i shown
    rw [slot_sortKind, eq_comm (b := m)]
    cases r.disposition <;> simp [shown, sortKind, noteRule, declare, alter]

end KindTables

/-! ### All rules -/

/-- The rule has been taken in for a lexical state, is not private, and of the kind. -/
def Heeded (taken : List (Nat × DeclaredRule)) (n : Kind) (state : Nat) (r : DeclaredRule) : Prop :=
  (state, r) ∈ taken ∧ r.regex.isPrivate = false ∧ r.regex.kind = n

theorem heeded_append {taken : List (Nat × DeclaredRule)} {n : Kind} {i state : Nat} {r s : DeclaredRule} :
    Heeded (taken ++ [(state, r)]) n i s ↔
      Heeded taken n i s ∨ (i = state ∧ s = r) ∧ r.regex.isPrivate = false ∧ r.regex.kind = n := by
  unfold Heeded
  rw [List.mem_append, List.mem_singleton, Prod.mk.injEq, or_and_right]
  refine or_congr_right (and_congr_right ?_)
  rintro ⟨_, rfl⟩
  rfl

/-- Every regex has a kind of its own, which is not that of the end of the input. -/
structure Grammar.OwnKinds (g : Grammar) : Prop where
  distinct : (g.regexes.map (·.kind)).Nodup
  apart : ∀ t ∈ g.regexes, t.kind ≠ Kind.endOfInput

/-- The tables once these rules have been taken in, each for a lexical state that declares it. -/
structure TakenIn (g : Grammar) (taken : List (Nat × DeclaredRule)) (k : KindTables) : Prop where
  declared : ∀ i r, (i, r) ∈ taken → r ∈ g.rulesIn i
  room : k.slots.size = g.lastKind + 1
  atEnd : k.slot Kind.endOfInput = ((KindTables.forGrammar g).endOfInput g).slot Kind.endOfInput
  regex : ∀ n, n ≠ Kind.endOfInput → ∀ t, (k.slot n).regex = some t ↔ ∃ i r, (i, r) ∈ taken ∧ r.regex = t ∧ t.kind = n
  disposition : ∀ n, n ≠ Kind.endOfInput → ∀ d,
    (k.slot n).disposition = some d ↔ ∃ i r, Heeded taken n i r ∧ r.disposition = d
  /-- A kind leads to another lexical state once one other than this has taken in its rule. -/
  next : ∀ n, n ≠ Kind.endOfInput → ∀ m, (k.slot n).nextState = some m ↔
    ∃ i r, Heeded taken n i r ∧ KindTables.destination g r.rule = some m ∧ m ≠ i
  kept : ∀ c n, (k.kept c).contains n = true ↔
    c = .token ∧ n = Kind.endOfInput ∨ ∃ i r, Heeded taken n i r ∧ r.disposition.CountsAs c
  reached : ∀ m, m ∈ k.reachedByMore ↔ ∃ i r, Heeded taken r.regex.kind i r ∧ r.disposition = .more ∧
    (KindTables.destination g r.rule).getD i = m

namespace TakenIn

variable {g : Grammar} {taken : List (Nat × DeclaredRule)} {k : KindTables} {state : Nat} {r : DeclaredRule} {n : Kind}

theorem inside (before : TakenIn g taken k) (member : r ∈ g.rulesIn state) : r.regex.kind < k.slots.size := by
  rw [before.room]
  exact Nat.lt_succ_of_le (Grammar.kind_le_lastKind (Grammar.regex_of_rulesIn member))

/-- Whatever rules of the kind of `r` there are, they are `r`. -/
theorem same_of_kind (own : g.OwnKinds) (before : TakenIn g taken k) (member : r ∈ g.rulesIn state) {i : Nat}
    {s : DeclaredRule} (there : (i, s) ∈ taken ++ [(state, r)]) (same : s.regex.kind = r.regex.kind) : s = r := by
  rcases List.mem_append.mp there with earlier | last
  · exact Grammar.rule_of_kind own.distinct (before.declared i s earlier) member same
  · exact (Prod.mk.inj (List.mem_singleton.mp last)).2

theorem regex_taking (own : g.OwnKinds) (before : TakenIn g taken k) (member : r ∈ g.rulesIn state) (t : TokenDef) :
    ((k.slot r.regex.kind).taking g state r).regex = some t ↔
      ∃ i s, (i, s) ∈ taken ++ [(state, r)] ∧ s.regex = t ∧ t.kind = r.regex.kind := by
  have taking : ((k.slot r.regex.kind).taking g state r).regex = some r.regex := by
    unfold KindSlot.taking
    dsimp only
    split <;> rfl
  rw [taking, Option.some.injEq]
  constructor
  · rintro rfl
    exact ⟨state, r, List.mem_append_right _ (List.mem_singleton_self _), rfl, rfl⟩
  · rintro ⟨i, s, there, rfl, same⟩
    rw [before.same_of_kind own member there same]

theorem disposition_taking (own : g.OwnKinds) (before : TakenIn g taken k) (member : r ∈ g.rulesIn state)
    (d : Disposition) : ((k.slot r.regex.kind).taking g state r).disposition = some d ↔
      ∃ i s, Heeded (taken ++ [(state, r)]) r.regex.kind i s ∧ s.disposition = d := by
  have known := before.disposition r.regex.kind (own.apart r.regex (Grammar.regex_of_rulesIn member)) d
  unfold KindSlot.taking
  cases isPrivate : r.regex.isPrivate with
  | true =>
    refine known.trans (exists_congr fun i => exists_congr fun s => and_congr_left fun _ => ?_)
    simp [heeded_append, isPrivate]
  | false =>
    refine Option.some_inj.trans ⟨fun same => ?_, ?_⟩
    · exact ⟨state, r, heeded_append.mpr (.inr ⟨⟨rfl, rfl⟩, isPrivate, rfl⟩), same⟩
    · rintro ⟨i, s, heeded, same⟩
      rwa [before.same_of_kind own member heeded.1 heeded.2.2] at same

/-- Earlier states have left the slot with nothing but where the rule leads, and nothing is needed where it leads to the
state itself. -/
theorem next_taking (own : g.OwnKinds) (before : TakenIn g taken k) (member : r ∈ g.rulesIn state) (m : Nat) :
    ((k.slot r.regex.kind).taking g state r).nextState = some m ↔
      ∃ i s, Heeded (taken ++ [(state, r)]) r.regex.kind i s ∧ KindTables.destination g s.rule = some m ∧ m ≠ i := by
  have known := before.next r.regex.kind (own.apart r.regex (Grammar.regex_of_rulesIn member)) m
  unfold KindSlot.taking
  cases isPrivate : r.regex.isPrivate with
  | true =>
    refine known.trans (exists_congr fun i => exists_congr fun s => and_congr_left fun _ => ?_)
    simp [heeded_append, isPrivate]
  | false =>
    refine Option.or_eq_some_iff.trans ⟨?_, ?_⟩
    · rintro (here | ⟨_, earlier⟩)
      · obtain ⟨leads, elsewhere⟩ := Option.filter_eq_some_iff.mp here
        exact ⟨state, r, heeded_append.mpr (.inr ⟨⟨rfl, rfl⟩, isPrivate, rfl⟩), leads, by simpa using elsewhere⟩
      · obtain ⟨i, s, heeded, leads, elsewhere⟩ := known.mp earlier
        exact ⟨i, s, heeded_append.mpr (.inl heeded), leads, elsewhere⟩
    · rintro ⟨i, s, heeded, leads, elsewhere⟩
      obtain rfl := before.same_of_kind own member heeded.1 heeded.2.2
      by_cases here : m = state
      · -- The rule leads to this state, so an earlier one has left the destination.
        have earlier : Heeded taken s.regex.kind i s :=
          (heeded_append.mp heeded).resolve_right fun last => elsewhere (here.trans last.1.1.symm)
        refine .inr ⟨?_, known.mpr ⟨i, s, earlier, leads, elsewhere⟩⟩
        rw [leads, here]
        simp
      · exact .inl (Option.filter_eq_some_iff.mpr ⟨leads, by simpa using here⟩)

/-- A slot that tells where its rule leads from all other states tells it from this one. -/
theorem lands {slot : KindSlot} {i : Nat} (only : ∀ j s, Heeded taken n j s → s = r) (heeded : Heeded taken n i r)
    (next : ∀ m, slot.nextState = some m ↔
      ∃ j s, Heeded taken n j s ∧ KindTables.destination g s.rule = some m ∧ m ≠ j) :
    slot.nextState.getD i = (KindTables.destination g r.rule).getD i := by
  cases nextState : slot.nextState with
  | some m =>
    obtain ⟨j, s, there, leads, _⟩ := (next m).mp nextState
    rw [← only j s there, leads]
  | none =>
    cases leads : KindTables.destination g r.rule with
    | none => rfl
    | some m =>
      by_contra elsewhere
      have known := (next m).mpr ⟨i, r, heeded, leads, Ne.symm elsewhere⟩
      rw [nextState] at known
      cases known

/-- Taking in a rule touches no other slot. -/
theorem slot_after (before : TakenIn g taken k) (member : r ∈ g.rulesIn state) (n : Kind) :
    (k.takeDeclared g state r).slot n = if n = r.regex.kind then (k.slot n).taking g state r else k.slot n :=
  KindTables.slot_takeDeclared (before.inside member) n

theorem heeded_other (other : n ≠ r.regex.kind) {i : Nat} {s : DeclaredRule} :
    Heeded (taken ++ [(state, r)]) n i s ↔ Heeded taken n i s := by
  simp [heeded_append, Ne.symm other]

theorem next_after (own : g.OwnKinds) (before : TakenIn g taken k) (member : r ∈ g.rulesIn state)
    (notEnd : n ≠ Kind.endOfInput) (m : Nat) : ((k.takeDeclared g state r).slot n).nextState = some m ↔
      ∃ i s, Heeded (taken ++ [(state, r)]) n i s ∧ KindTables.destination g s.rule = some m ∧ m ≠ i := by
  rw [before.slot_after member]
  by_cases here : n = r.regex.kind
  · rw [if_pos here, here]
    exact before.next_taking own member m
  · simp only [if_neg here, heeded_other here]
    exact before.next n notEnd m

theorem kept_after (before : TakenIn g taken k) (c : Disposition) (n : Kind) :
    ((k.takeDeclared g state r).kept c).contains n = true ↔
      c = .token ∧ n = Kind.endOfInput ∨ ∃ i s, Heeded (taken ++ [(state, r)]) n i s ∧ s.disposition.CountsAs c := by
  rw [KindTables.contains_kept_takeDeclared, before.kept]
  constructor
  · rintro (⟨isPublic, ofKind, counts⟩ | atEnd | ⟨i, s, heeded, counts⟩)
    · exact .inr ⟨state, r, heeded_append.mpr (.inr ⟨⟨rfl, rfl⟩, isPublic, ofKind⟩), counts⟩
    · exact .inl atEnd
    · exact .inr ⟨i, s, heeded_append.mpr (.inl heeded), counts⟩
  · rintro (atEnd | ⟨i, s, heeded, counts⟩)
    · exact .inr (.inl atEnd)
    · rcases heeded_append.mp heeded with earlier | ⟨⟨rfl, rfl⟩, isPublic, ofKind⟩
      · exact .inr (.inr ⟨i, s, earlier, counts⟩)
      · exact .inl ⟨isPublic, ofKind, counts⟩

theorem reached_after (own : g.OwnKinds) (before : TakenIn g taken k) (member : r ∈ g.rulesIn state) (m : Nat) :
    m ∈ (k.takeDeclared g state r).reachedByMore ↔ ∃ i s, Heeded (taken ++ [(state, r)]) s.regex.kind i s ∧
      s.disposition = .more ∧ (KindTables.destination g s.rule).getD i = m := by
  have landing : r.regex.isPrivate = false → ((k.takeDeclared g state r).slot r.regex.kind).nextState.getD state =
      (KindTables.destination g r.rule).getD state := fun isPublic =>
    lands (fun j s heeded => before.same_of_kind own member heeded.1 heeded.2.2)
      (heeded_append.mpr (.inr ⟨⟨rfl, rfl⟩, isPublic, rfl⟩))
      (before.next_after own member (own.apart r.regex (Grammar.regex_of_rulesIn member)))
  rw [KindTables.mem_reachedByMore_takeDeclared, before.reached]
  constructor
  · rintro (⟨isPublic, isMore, leads⟩ | ⟨i, s, heeded, rest⟩)
    · exact ⟨state, r, heeded_append.mpr (.inr ⟨⟨rfl, rfl⟩, isPublic, rfl⟩), isMore, (landing isPublic).symm.trans leads⟩
    · exact ⟨i, s, heeded_append.mpr (.inl heeded), rest⟩
  · rintro ⟨i, s, heeded, isMore, leads⟩
    rcases heeded_append.mp heeded with earlier | ⟨⟨rfl, rfl⟩, isPublic, _⟩
    · exact .inr ⟨i, s, earlier, isMore, leads⟩
    · exact .inl ⟨isPublic, isMore, (landing isPublic).trans leads⟩

/-- One more rule. -/
theorem takeDeclared (own : g.OwnKinds) (before : TakenIn g taken k) (member : r ∈ g.rulesIn state) :
    TakenIn g (taken ++ [(state, r)]) (k.takeDeclared g state r) where
  declared i s there := by
    rcases List.mem_append.mp there with earlier | last
    · exact before.declared i s earlier
    · obtain ⟨rfl, rfl⟩ := Prod.mk.inj (List.mem_singleton.mp last)
      exact member
  room := KindTables.size_takeDeclared.trans before.room
  atEnd := by
    rw [before.slot_after member, if_neg (Ne.symm (own.apart r.regex (Grammar.regex_of_rulesIn member)))]
    exact before.atEnd
  regex n notEnd t := by
    rw [before.slot_after member]
    by_cases here : n = r.regex.kind
    · rw [if_pos here, here]
      exact before.regex_taking own member t
    · rw [if_neg here, before.regex n notEnd t]
      refine exists_congr fun i => exists_congr fun s => and_congr_left ?_
      rintro ⟨rfl, rfl⟩
      rw [List.mem_append, List.mem_singleton]
      exact (or_iff_left fun last => here (by rw [(Prod.mk.inj last).2])).symm
  disposition n notEnd d := by
    rw [before.slot_after member]
    by_cases here : n = r.regex.kind
    · rw [if_pos here, here]
      exact before.disposition_taking own member d
    · simp only [if_neg here, heeded_other here]
      exact before.disposition n notEnd d
  next n notEnd m := before.next_after own member notEnd m
  kept c n := before.kept_after c n
  reached m := before.reached_after own member m

/-- All rules of a lexical state. -/
theorem takeAll (own : g.OwnKinds) {rules : List DeclaredRule} (inState : ∀ r ∈ rules, r ∈ g.rulesIn state)
    (before : TakenIn g taken k) :
    TakenIn g (taken ++ rules.map (state, ·)) (rules.foldl (KindTables.takeDeclared g state) k) := by
  induction rules generalizing taken k with
  | nil => simpa using before
  | cons r rest ih =>
    obtain ⟨first, later⟩ := List.forall_mem_cons.mp inState
    have after := ih later (before.takeDeclared own first)
    rwa [List.append_assoc, List.singleton_append] at after

end TakenIn

end TokenTables
