import TokenTables.Proofs.Automaton.Step

/-!
Runs of a closed graph. The active states read what can be read from the states of the built graph that a text
enters, and the kind reported is the best one that closing found for these.
-/

namespace TokenTables.Automaton.Graph

open Kind (IsBest)

variable {base closed named : Graph} {sem : Standing} {starts : Set Nat} {active : List StateId}

/-- The states entered by reading a character from some states on. -/
def entering (base : Graph) (starts : Set Nat) (c : Char) : Set Nat := {t | ∃ s ∈ starts, Gets base s c.toNat t}

/-- The states entered by reading a text. -/
def entered (base : Graph) : (starts : Set Nat) → List Char → Set Nat
  | starts, [] => starts
  | starts, c :: rest => base.entered (base.entering starts c) rest

theorem entered_append {starts : Set Nat} (text more : List Char) :
    base.entered starts (text ++ more) = base.entered (base.entered starts text) more := by
  induction text generalizing starts with
  | nil => rfl
  | cons c rest ih => exact ih

/-- The kinds that closing found for the states entered by a text. -/
def KindFound (base closed : Graph) (starts : Set Nat) (text : List Char) (kind : Option Kind) : Prop :=
  ∃ t ∈ base.entered starts text, kind = (closed.state t).kind

theorem Path.silent {s t f : Nat} {text : List Char} (first : Silent base s t) (path : base.Path t text f) :
    base.Path s text f := by
  induction first using Relation.ReflTransGen.head_induction_on with
  | refl => exact path
  | head edge _ ih => exact .epsilon edge ih

theorem Path.entered {s q f : Nat} {text : List Char} (path : base.Path q text f) (start : s ∈ starts)
    (silent : Silent base s q) : ∃ t ∈ base.entered starts text, Silent base t f := by
  induction path generalizing starts s with
  | here => exact ⟨s, start, silent⟩
  | epsilon edge _ ih => exact ih start (silent.tail edge)
  | @move q n f c text accepts edge _ ih =>
    have reached : n ∈ base.entering starts c := ⟨s, start, q, silent, accepts, edge⟩
    exact ih reached .refl

/-- A path enters a state with its last character and goes on silently. -/
theorem exists_path_iff {text : List Char} {f : Nat} :
    (∃ s ∈ starts, base.Path s text f) ↔ ∃ t ∈ base.entered starts text, Silent base t f := by
  constructor
  · rintro ⟨s, start, path⟩
    exact path.entered start .refl
  · rintro ⟨t, member, silent⟩
    induction text generalizing starts with
    | nil => exact ⟨t, member, .silent silent .here⟩
    | cons c rest ih =>
      obtain ⟨n, ⟨s, start, q, first, accepts, edge⟩, path⟩ := ih member
      exact ⟨s, start, .silent first (.move accepts edge path)⟩

/-! ### Active states -/

/-- The active states have names, and they read what can be read from the starting states on. -/
structure Active (base : Graph) (sem : Standing) (closed named : Graph) (starts : Set Nat)
    (active : List StateId) : Prop where
  named : ∀ m ∈ active, (named.state m).name.isSome = true
  reads : ∀ code t, (∃ s ∈ starts, Gets base s code t) ↔ ∃ m ∈ active, MovesTo closed sem m code t

/-- What a complete list reads is what can be read from its state on. -/
theorem Represents.listed (rep : Represents base sem closed) {n : Nat} (status : (closed.state n).isClosed = true)
    {code t : Nat} : GetsAny base sem n code t ↔ ∃ m ∈ (closed.state n).epsilon, MovesTo closed sem m code t := by
  constructor
  · exact rep.complete n status code t
  · rintro ⟨m, member, moves⟩
    obtain ⟨k, goes, _⟩ := moves.2
    exact (rep.behind n m member).gets ((rep.mover m k goes code t).mp moves)

/-- A state with moves reads something. -/
theorem Represents.exists_movesTo (rep : Represents base sem closed) {m : Nat}
    (moves : (closed.state m).hasMoves = true) : ∃ code t, MovesTo closed sem m code t := by
  obtain ⟨n, goes⟩ := next_of_hasMoves (rep.idle m) moves
  obtain ⟨_, ⟨t, stands⟩, _⟩ := rep.next m n goes
  have some : ∃ code, (closed.state m).moves.acceptsCode code = true := by
    by_contra none
    push Not at none
    have empty := (Moves.isEmpty_iff (rep.valid m)).mpr fun code => Bool.eq_false_iff.mpr (none code)
    unfold State.hasMoves at moves
    rw [empty] at moves
    cases moves
  obtain ⟨code, accepts⟩ := some
  exact ⟨code, t, accepts, n, goes, stands⟩

theorem Labelled.active_opening (labelled : Labelled closed named) (completed : Completed base sem closed)
    (fresh : Fresh base) : Active base sem closed named {0} closed.openingStates where
  named := labelled.opening
  reads code t := by
    have opening : closed.openingStates = (closed.state 0).epsilon := by
      unfold openingStates
      rw [completed.initial, fresh.initial]
    have listed := @Represents.listed _ _ _ completed.toRepresents 0 (completed.done 0 fresh.size_pos).closed code t
    rw [completed.getsAny_self fresh.size_pos] at listed
    rw [opening, ← listed]
    simp

/-- The states entered are those that the active states that accept the character go on to. -/
theorem Active.mem_entering (active_ok : Active base sem closed named starts active) (same : Relabelled closed named)
    {c : Char} {t : Nat} : t ∈ base.entering starts c ↔ ∃ m ∈ active, (named.state m).accepts c = true ∧
      ∃ n, (closed.state m).next = some n ∧ t ∈ sem n := by
  have accepts : ∀ m : Nat, (named.state m).accepts c = (closed.state m).moves.acceptsCode c.toNat := by
    intro m
    unfold State.accepts
    rw [same.moves]
    rfl
  simp only [accepts]
  exact active_ok.reads c.toNat t

theorem Active.goes (active_ok : Active base sem closed named starts active) (labelled : Labelled closed named)
    (rep : Represents base sem closed) {m : Nat} (member : m ∈ active) :
    (closed.state m).hasMoves = true ∧ (named.state m).reported = closed.kindAfter m ∧
      ∃ n, (closed.state m).next = some n := by
  obtain ⟨name, known⟩ := Option.isSome_iff_exists.mp (active_ok.named m member)
  obtain ⟨moves, reports, _⟩ := labelled.known m name known
  exact ⟨moves, reports, next_of_hasMoves (rep.idle m) moves⟩

/-- Reading a character keeps to the states entered. -/
theorem Active.step (active_ok : Active base sem closed named starts active) (labelled : Labelled closed named)
    (completed : Completed base sem closed) (c : Char) :
    Active base sem closed named (base.entering starts c) (named.step c active).2 := by
  have same := labelled.same
  refine ⟨fun q member => ?_, fun code t => ?_⟩
  · obtain ⟨m, inActive, _, listed⟩ := mem_step.mp member
    rw [same.listAfter] at listed
    exact labelled.after m (active_ok.named m inActive) q listed
  · have through : ∀ m n : Nat, (closed.state m).next = some n →
        (GetsAny base sem n code t ↔ ∃ q ∈ named.listAfter m, MovesTo closed sem q code t) := by
      intro m n goes
      rw [completed.toRepresents.listed (completed.entered m n goes).closed, same.listAfter]
      unfold listAfter
      rw [goes]
    constructor
    · rintro ⟨s, start, gets⟩
      obtain ⟨m, inActive, accepts, n, goes, stands⟩ := (active_ok.mem_entering same).mp start
      obtain ⟨q, listed, moves⟩ := (through m n goes).mp ⟨s, stands, gets⟩
      exact ⟨q, mem_step.mpr ⟨m, inActive, accepts, listed⟩, moves⟩
    · rintro ⟨q, member, moves⟩
      obtain ⟨m, inActive, accepts, listed⟩ := mem_step.mp member
      obtain ⟨_, _, n, goes⟩ := active_ok.goes labelled completed.toRepresents inActive
      obtain ⟨s, stands, gets⟩ := (through m n goes).mpr ⟨q, listed, moves⟩
      exact ⟨s, (active_ok.mem_entering same).mpr ⟨m, inActive, accepts, n, goes, stands⟩, gets⟩

/-- The kind reported is the best one of the states entered. -/
theorem Active.kind (active_ok : Active base sem closed named starts active) (labelled : Labelled closed named)
    (completed : Completed base sem closed) (c : Char) :
    IsBest (named.step c active).1 (KindFound base closed starts [c]) := by
  have same := labelled.same
  have kinds := @step_kind named c active
  have reported : ∀ m n : Nat, m ∈ active → (closed.state m).next = some n →
      (named.state m).reported = (closed.state n).kind := by
    intro m n member goes
    rw [(active_ok.goes labelled completed.toRepresents member).2.1]
    unfold kindAfter
    rw [goes]
    rfl
  refine ⟨fun k found => ?_, ?_⟩
  · obtain ⟨m, member, accepts, kind⟩ := kinds.found k found
    obtain ⟨_, _, n, goes⟩ := active_ok.goes labelled completed.toRepresents member
    rw [reported m n member goes] at kind
    obtain ⟨t, stands, kindT⟩ := (completed.best m n goes).some k kind.symm
    exact ⟨t, (active_ok.mem_entering same).mpr ⟨m, member, accepts, n, goes, stands⟩, kindT.symm⟩
  · rintro a ⟨t, start, rfl⟩
    obtain ⟨m, member, accepts, n, goes, stands⟩ := (active_ok.mem_entering same).mp start
    have best := kinds.first _ ⟨m, member, accepts, rfl⟩
    rw [reported m n member goes] at best
    exact best.trans ((completed.best m n goes).best t stands)

/-- Along a text the kinds reported are found, and the states active are those for the states entered. -/
theorem Active.along (active_ok : Active base sem closed named starts active) (labelled : Labelled closed named)
    (completed : Completed base sem closed) {text : List Char} {i : Nat} {kind : Option Kind} {after : List StateId}
    (here : (named.trace active text)[i]? = some (kind, after)) :
    IsBest kind (KindFound base closed starts (text.take (i + 1))) ∧
      Active base sem closed named (base.entered starts (text.take (i + 1))) after := by
  induction text generalizing starts active i with
  | nil => cases here
  | cons c rest ih =>
    have first := active_ok.kind labelled completed c
    have next := active_ok.step labelled completed c
    cases i with
    | zero =>
      have same : named.step c active = (kind, after) := Option.some.inj here
      rw [same] at first next
      exact ⟨first, next⟩
    | succ i => exact ih next here

/-- No state is active just when nothing more can be read. -/
theorem Active.eq_nil_iff (active_ok : Active base sem closed named starts active) (labelled : Labelled closed named)
    (completed : Completed base sem closed) : active = [] ↔ ∀ s ∈ starts, ∀ code t, ¬ Gets base s code t := by
  constructor
  · rintro rfl s start code t gets
    obtain ⟨m, member, _⟩ := (active_ok.reads code t).mp ⟨s, start, gets⟩
    cases member
  · intro nothing
    rw [List.eq_nil_iff_forall_not_mem]
    intro m member
    obtain ⟨moves, _, _⟩ := active_ok.goes labelled completed.toRepresents member
    obtain ⟨code, t, reads⟩ := completed.toRepresents.exists_movesTo moves
    obtain ⟨s, start, gets⟩ := (active_ok.reads code t).mpr ⟨m, member, reads⟩
    exact nothing s start code t gets

theorem entered_of_nothing (nothing : ∀ s ∈ starts, ∀ code t, ¬ Gets base s code t) {text : List Char}
    (unread : text ≠ []) : base.entered starts text = ∅ := by
  have none : ∀ c, base.entering starts c = ∅ := by
    intro c
    rw [Set.eq_empty_iff_forall_notMem]
    rintro t ⟨s, start, gets⟩
    exact nothing s start c.toNat t gets
  have stays : ∀ text, base.entered ∅ text = ∅ := by
    intro text
    induction text with
    | nil => rfl
    | cons c rest ih =>
      have again : base.entering ∅ c = ∅ := by
        rw [Set.eq_empty_iff_forall_notMem]
        rintro t ⟨s, start, _⟩
        exact start
      rw [entered, again, ih]
  cases text with
  | nil => exact absurd rfl unread
  | cons c rest => rw [entered, none, stays]

/-! ### Kinds of the built graph -/

/-- Every kind that the built graph matches after a text comes to be found at a state that the text enters, or an
earlier one does. -/
def KindsArrive (base closed : Graph) : Prop :=
  ∀ text : List Char, (∀ c ∈ text, c.toNat ≤ Text.lastCode) → ∀ f (k : Kind), base.Path 0 text f →
    (base.state f).kind = some k → ∃ found, KindFound base closed {0} text found ∧ Kind.NoLater found (some k)

/-- A text enters states of the graph, but not the initial one. -/
theorem Fresh.entered_bounds (fresh : Fresh base) {text : List Char} (unread : text ≠ []) {t : Nat}
    (member : t ∈ base.entered starts text) : 0 < t ∧ t < base.size := by
  induction text generalizing starts with
  | nil => exact absurd rfl unread
  | cons c rest ih =>
    cases rest with
    | nil =>
      obtain ⟨_, _, a, _, _, goes⟩ := member
      obtain ⟨less, inside, _⟩ := fresh.next a t goes
      exact ⟨Nat.lt_of_le_of_lt (Nat.zero_le a) less, inside⟩
    | cons d more => exact ih (List.cons_ne_nil d more) member

/-- A kind that is found is matched by the built graph. -/
theorem KindFound.matched {text : List Char} {k : Kind} (found : KindFound base closed {0} text (some k))
    (rep : Represents base sem closed) (fresh : Fresh base) :
    ∃ f, base.Path 0 text f ∧ (base.state f).kind = some k := by
  obtain ⟨t, member, kind⟩ := found
  have inside : t < base.size := by
    cases text with
    | nil =>
      obtain rfl : t = 0 := member
      exact fresh.size_pos
    | cons c rest => exact (fresh.entered_bounds (List.cons_ne_nil c rest) member).2
  obtain ⟨f, silent, kindF⟩ := (rep.endsAny_self inside).mp (rep.kind t k kind.symm)
  obtain ⟨s, same, path⟩ := exists_path_iff.mpr ⟨t, member, silent⟩
  obtain rfl : s = 0 := same
  exact ⟨f, path, kindF⟩

end TokenTables.Automaton.Graph
