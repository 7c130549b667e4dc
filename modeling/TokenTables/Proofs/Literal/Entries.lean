import TokenTables.Proofs.Literal.Resumption
import TokenTables.Proofs.Kind

/-!
The entries of literals. A lexical state has one for each of its literals, and the kind that an entry reports is that of
its literal or one that was found on the way through the automaton or as the wildcard.
-/

namespace TokenTables.LiteralIndex

open Automaton (Graph StateId)

variable {t : LiteralIndex} {lexState offset : Nat} {g : Graph} {wildcard : Option Kind} {P : Kind → Prop}
  {Q : StateId → Prop}

/-! ### Registering -/

theorem mem_enterKeys {tables : CandidateTables} {e x : Candidate} {c : Char} :
    x ∈ (enterKeys lexState tables e).beginningWith lexState c ↔
      x = e ∧ c ∈ entryKeys e ∨ x ∈ tables.beginningWith lexState c := by
  unfold enterKeys
  induction entryKeys e generalizing tables with
  | nil => simp
  | cons key rest ih =>
    rw [List.foldl_cons, ih, CandidateTables.beginningWith_addEntry]
    by_cases here : key = c
    · subst here
      rw [if_pos ⟨rfl, rfl⟩, Candidate.mem_place]
      simp only [List.mem_cons, true_or, and_true]
      tauto
    · rw [if_neg fun both => here both.2]
      simp only [List.mem_cons, Ne.symm here, false_or]

theorem mem_byKind {l : Literal} : l ∈ t.byKind ↔ l ∈ t.literals := List.mem_mergeSort

/-- Registering adds the entries of the literals to those that the lexical state has. -/
theorem mem_register_added {tables : CandidateTables} {e : Candidate} {c : Char} :
    e ∈ (t.register lexState offset g tables).tables.beginningWith lexState c ↔
      (∃ l ∈ t.literals, e = t.entryOf l ∧ c ∈ entryKeys e) ∨ e ∈ tables.beginningWith lexState c := by
  have all : ∀ (literals : List Literal) (u : TableUpdate),
      e ∈ (literals.foldl (t.enterLiteral lexState offset) u).tables.beginningWith lexState c ↔
        (∃ l ∈ literals, e = t.entryOf l ∧ c ∈ entryKeys e) ∨ e ∈ u.tables.beginningWith lexState c := by
    intro literals
    induction literals with
    | nil => simp
    | cons l rest ih =>
      intro u
      rw [List.foldl_cons, ih, enterLiteral_eq, CandidateTables.beginningWith_setStart, mem_enterKeys,
        List.exists_mem_cons_iff, or_left_comm, or_assoc]
      refine or_congr_left ⟨?_, ?_⟩
      · rintro ⟨rfl, key⟩
        exact ⟨rfl, key⟩
      · rintro ⟨rfl, key⟩
        exact ⟨rfl, key⟩
  unfold register
  rw [all]
  simp only [mem_byKind]

/-- A lexical state has the entries of its literals. -/
theorem mem_register {tables : CandidateTables} (absent : Absent lexState tables) {e : Candidate} {c : Char} :
    e ∈ (t.register lexState offset g tables).tables.beginningWith lexState c ↔
      ∃ l ∈ t.literals, e = t.entryOf l ∧ c ∈ entryKeys e := by
  rw [mem_register_added, absent.candidates]
  simp

/-! ### Kinds on the way -/

/-- From states of `Q` the graph reports kinds of `P` and comes to states of `Q`. -/
structure KeepsTo (g : Graph) (P : Kind → Prop) (Q : StateId → Prop) : Prop where
  kind : ∀ active c k, (∀ s ∈ active, Q s) → (g.step c active).1 = some k → P k
  next : ∀ active c, (∀ s ∈ active, Q s) → ∀ s ∈ (g.step c active).2, Q s

theorem capAtWildcard_kind (wild : ∀ k, wildcard = some k → P k) {step : Progress} (own : ∀ k, step.kind = some k → P k) :
    ∀ k, (capAtWildcard wildcard step).kind = some k → P k := by
  intro k
  unfold capAtWildcard
  split
  · rename_i first any _
    split
    · intro same
      obtain rfl : any = k := Option.some.inj same
      exact wild any rfl
    · exact own k
  · exact own k

theorem progressAt_kind (wild : ∀ k, wildcard = some k → P k) {kind : Option Kind} (now : ∀ k, kind = some k → P k)
    {before : Progress} (earlier : ∀ k, before.kind = some k → P k) (text : List Char) (pos : Nat) :
    ∀ k, (t.progressAt wildcard text pos kind before).kind = some k → P k := by
  have capped : ∀ step : Progress, (∀ k, step.kind = some k → P k) →
      ∀ k, (if pos = 0 then capAtWildcard wildcard step else step).kind = some k → P k := by
    intro step own
    split
    · exact capAtWildcard_kind wild own
    · exact own
  unfold progressAt
  apply capped
  split
  · split
    · exact fun k none => nomatch none
    · exact now
  · exact fun k none => nomatch none
  · exact now
  · exact earlier

theorem follow_kind (keeps : KeepsTo g P Q) (wild : ∀ k, wildcard = some k → P k) (read rest : List Char)
    {before : Progress} (earlier : ∀ k, before.kind = some k → P k) {active : List StateId} (inside : ∀ s ∈ active, Q s) :
    ∀ step ∈ t.follow g wildcard read before active rest, ∀ k, step.1.kind = some k → P k := by
  induction rest generalizing read before active with
  | nil => exact fun step member => nomatch member
  | cons c rest ih =>
    intro step member
    unfold follow at member
    dsimp only at member
    split at member
    · rcases List.mem_cons.mp member with rfl | later
      · exact earlier
      · exact ih _ earlier (fun s none => absurd none List.not_mem_nil) step later
    · have here := progressAt_kind (t := t) wild (keeps.kind active c · inside) earlier (read ++ [c]) read.length
      rcases List.mem_cons.mp member with rfl | later
      · exact here
      · exact ih _ here (keeps.next active c inside) step later

/-- Following the automaton leaves the literals as they are. -/
theorem findResumptions_eq (t : LiteralIndex) (g : Graph) (wildcard : Option Kind) :
    ∃ progress resumptions, t.findResumptions g wildcard = { t with progress, resumptions } := by
  unfold findResumptions
  dsimp only
  split
  · exact ⟨_, _, rfl⟩
  · refine List.foldlRecOn
      (motive := fun made : LiteralIndex => ∃ progress resumptions, made = { t with progress, resumptions }) _ _
      ⟨_, _, rfl⟩ fun made before l _ => ?_
    obtain ⟨progress, resumptions, rfl⟩ := before
    exact ⟨_, _, rfl⟩

/-- The kinds kept for the literals of a lexical state. -/
def ProgressOf (t : LiteralIndex) (P : Kind → Prop) : Prop :=
  ∀ (l : Kind) steps, t.progress[l]? = some steps → ∀ step ∈ steps, ∀ k, step.kind = some k → P k

theorem findResumptions_progress (keeps : KeepsTo g P Q) (wild : ∀ k, wildcard = some k → P k)
    (opening : ∀ s ∈ g.openingStates, Q s) : (t.findResumptions g wildcard).ProgressOf P := by
  intro k steps known step member
  obtain ⟨l, _, _, rfl⟩ := (findResumptions_follows t g wildcard).progress k steps known
  obtain ⟨pair, inside, rfl⟩ := List.mem_map.mp member
  exact follow_kind keeps wild [] l.chars (fun k none => by cases none) opening pair inside

/-- The kind of an entry is that of its literal, unless one kept for the literal is earlier. -/
theorem entryOf_kind (kept : t.ProgressOf P) {l : Literal} (own : P l.kind) : P (t.entryOf l).kind := by
  unfold entryOf
  dsimp only
  cases shadow : t.shadowingKind l with
  | none => exact own
  | some k =>
    obtain ⟨steps, known, step, place, found, _⟩ := shadowingKind_some shadow
    exact kept l.kind steps known step (List.mem_of_getElem? place) k found

end TokenTables.LiteralIndex
