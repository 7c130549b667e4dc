import TokenTables.Proofs.Tokenizer.EmptyLoops

/-!
The search for loops of empty matches is exact. A lexical state is marked just when empty matches never lead out of the
states that have one, and a loop is reported just when some state is marked.
-/

namespace TokenTables

namespace EmptyMatching

variable {m : EmptyMatching} {C : Set Nat} {state start s : Nat} {k : Kind} {visited : List Nat}

/-- The state matches the empty text as a token, and no wildcard makes it read a character. -/
def Lingers (m : EmptyMatching) (state : Nat) : Prop :=
  ∃ s, m.states[state]? = some s ∧ s.wildcard = none ∧ ∃ k, s.emptyMatch = some k ∧ k ≠ Kind.endOfInput

/-- The state to go on from after the empty match of a state; without one, or if it leads nowhere, the state itself. -/
def successor (m : EmptyMatching) (state : Nat) : Nat :=
  (((m.states[state]?).bind (·.emptyMatch)).bind m.target).getD state

theorem lingers_iff : m.Lingers state ↔ ∃ k, m.emptyMatch state = some k := by
  unfold Lingers emptyMatch
  cases present : m.states[state]? with
  | none => simp
  | some s =>
    cases matched : s.emptyMatch with
    | none => simp [matched]
    | some k => simp [matched]

theorem successor_eq (matched : m.emptyMatch state = some k) : m.successor state = (m.target k).getD state := by
  obtain ⟨s, present, matched⟩ := Option.bind_eq_some_iff.mp matched
  obtain ⟨l, isMatch, kept⟩ := Option.bind_eq_some_iff.mp matched
  obtain rfl := Option.some.inj (Option.ite_none_right_eq_some.mp kept).2
  unfold successor
  rw [present, Option.bind_some, isMatch, Option.bind_some]

theorem Trap.successor (trap : m.Trap C) (inside : state ∈ C) : m.successor state ∈ C := by
  obtain ⟨k, matched⟩ := trap.matches inside
  rw [successor_eq matched]
  exact trap.target inside matched

/-- Empty matches do not lead out of a trap. -/
theorem Trap.lingers (trap : m.Trap C) (inside : state ∈ C) (n : Nat) : m.Lingers (m.successor^[n] state) := by
  have stays : m.successor^[n] state ∈ C := by
    induction n with
    | zero => exact inside
    | succ n ih =>
      rw [Function.iterate_succ_apply']
      exact trap.successor ih
  exact lingers_iff.mpr (trap.matches stays)

/-- The states that empty matches never lead out of. -/
theorem trap_of_lingers : m.Trap {state | ∀ n, m.Lingers (m.successor^[n] state)} := by
  intro state forever
  obtain ⟨k, matched⟩ := lingers_iff.mp (forever 0)
  exact ⟨m.successor state, fun n => forever (n + 1), k, matched, successor_eq matched⟩

/-! ### Chains that close -/

/-- Each of the states leads to one of them, but for the last one. -/
def LeadsOn (m : EmptyMatching) (visited : List Nat) (last : Nat) : Prop :=
  ∀ s ∈ visited, s = last ∨ ∃ next ∈ visited, m.Leads s next

theorem LeadsOn.cons {next : Nat} (before : m.LeadsOn visited state) (step : m.Leads state next) :
    m.LeadsOn (next :: visited) next := by
  refine List.forall_mem_cons.mpr ⟨.inl rfl, fun s member => .inr ?_⟩
  rcases before s member with rfl | ⟨other, inside, leads⟩
  · exact ⟨next, List.mem_cons_self, step⟩
  · exact ⟨other, List.mem_cons_of_mem next inside, leads⟩

theorem LeadsOn.trap {next : Nat} (before : m.LeadsOn visited state) (step : m.Leads state next)
    (back : next ∈ visited) : m.Trap {s | s ∈ visited} := by
  intro s member
  rcases before s member with rfl | leads
  · exact ⟨next, back, step⟩
  · exact leads

/-- A chain that closes has been through a trap. -/
theorem follow_trap (visited : List Nat) (state : Nat) (k : Kind) (matched : m.emptyMatch state = some k)
    (here : state ∈ visited) (before : m.LeadsOn visited state)
    (closes : (m.follow visited state k).closing.isSome = true) :
    m.Trap {s | s ∈ (m.follow visited state k).visited} := by
  induction visited, state, k using follow.induct m with
  | case1 visited state k stays =>
    rw [follow_stays stays]
    exact before.trap ⟨k, matched, by rw [stays, Option.getD_none]⟩ here
  | case2 visited state k next goes fresh leaves =>
    rw [follow_eq goes, if_neg (Bool.eq_false_iff.mp fresh), leaves] at closes
    cases closes
  | case3 visited state k next goes fresh l found ih =>
    rw [follow_eq goes, if_neg (Bool.eq_false_iff.mp fresh), found] at closes ⊢
    exact ih found List.mem_cons_self (before.cons ⟨k, matched, by rw [goes, Option.getD_some]⟩) closes
  | case4 visited state k next goes old =>
    rw [follow_eq goes, if_pos (eq_true_of_ne_false old)]
    exact before.trap ⟨k, matched, by rw [goes, Option.getD_some]⟩ (List.contains_iff_mem.mp (eq_true_of_ne_false old))

/-! ### The search -/

/-- Whatever loops lies in a trap, and there is a report just when something loops. -/
structure Justified (m : EmptyMatching) (found : EmptyLoops) : Prop where
  trapped : ∀ s ∈ found.looping, ∃ C, m.Trap C ∧ s ∈ C
  reported : found.reports = [] ↔ found.looping = []
  warnings : ∀ r ∈ found.reports, ∃ d, r = .always d ∧ d.code = .emptyMatch ∧ d.severity = .warning

theorem Justified.searchFrom {found : EmptyLoops} (justified : m.Justified found) (start : Nat) :
    m.Justified (m.searchFrom found start) := by
  unfold EmptyMatching.searchFrom
  cases matched : m.emptyMatch start with
  | none => exact justified
  | some k =>
    dsimp only
    split
    · exact justified
    · split
      · exact ⟨justified.trapped, justified.reported, justified.warnings⟩
      · rename_i closing closes
        have here : start ∈ (m.chainFrom start k).visited := visited_follow [start] start k start List.mem_cons_self
        have trap := follow_trap [start] start k matched List.mem_cons_self (fun s member => .inl (List.mem_singleton.mp member))
          (by rw [show (m.follow [start] start k).closing = some closing from closes]; rfl)
        refine ⟨fun s member => ?_, ?_, fun r member => ?_⟩
        · rcases List.mem_append.mp member with new | old
          · exact ⟨_, trap, new⟩
          · exact justified.trapped s old
        · have some : (m.chainFrom start k).visited ≠ [] := List.ne_nil_of_mem here
          simp [some]
        · rcases List.mem_append.mp member with old | new
          · exact justified.warnings r old
          · exact ⟨_, List.mem_singleton.mp new, rfl, rfl⟩

theorem search_justified (m : EmptyMatching) : m.Justified m.search :=
  List.foldlRecOn (motive := fun found => m.Justified found) _ _
    ⟨fun _ none => (nomatch none), ⟨fun _ => rfl, fun _ => rfl⟩, fun _ none => (nomatch none)⟩
    fun _ before start _ => before.searchFrom start

/-- A state loops just when empty matches never lead out of the states that have one. -/
theorem mem_looping_iff : s ∈ m.search.looping ↔ ∀ n, m.Lingers (m.successor^[n] s) := by
  constructor
  · intro looping n
    obtain ⟨C, trap, inside⟩ := m.search_justified.trapped s looping
    exact trap.lingers inside n
  · exact fun forever => search_finds trap_of_lingers forever

theorem lt_of_looping (looping : s ∈ m.search.looping) : s < m.states.length := by
  obtain ⟨k, matched⟩ := lingers_iff.mp (mem_looping_iff.mp looping 0)
  exact lt_of_emptyMatch matched

end EmptyMatching

/-- A lexical state is marked as one that may loop just when empty matches keep to states that match the empty text, for
ever. The tokenizer is marked just when a state is, and then a loop is reported; otherwise none is. -/
theorem loops_marked (g : Grammar) (options : GenerationOptions) (a : Assembly) :
    let m := a.emptyMatching
    let t := Assembly.tokenizer g options a
    (∀ (i : Nat) s, t.states[i]? = some s → (s.mayLoop = true ↔ ∀ n, m.Lingers (m.successor^[n] i))) ∧
    (t.features.mayLoop = true ↔ ∃ (i : Nat) (s : LexicalState), t.states[i]? = some s ∧ s.mayLoop = true) ∧
    (∀ r ∈ m.search.reports, ∃ d, r = .always d ∧ d.code = .emptyMatch ∧ d.severity = .warning) ∧
    (∀ log : DiagnosticLog, t.features.mayLoop = true →
      ∃ d ∈ (log.reportAll m.search.reports).pending, d.code = .emptyMatch) ∧
    (t.features.mayLoop = false → m.search.reports = []) := by
  intro m t
  have flag : t.features.mayLoop = true ↔ m.search.looping ≠ [] := by
    show (!m.search.looping.isEmpty) = true ↔ m.search.looping ≠ []
    simp
  have marked : ∀ (i : Nat) s, t.states[i]? = some s → (s.mayLoop = true ↔ i ∈ m.search.looping) := by
    intro i s present
    have inside : i < a.states.length := by
      have lower := (List.getElem?_eq_some_iff.mp present).1
      simpa [t, Assembly.tokenizer] using lower
    obtain rfl := Option.some.inj ((Assembly.tokenizer_state (List.getElem?_eq_getElem inside)).symm.trans present)
    exact List.contains_iff_mem
  refine ⟨fun i s present => (marked i s present).trans EmptyMatching.mem_looping_iff, ?_,
    m.search_justified.warnings, fun log loops => ?_, fun calm => ?_⟩
  · rw [flag]
    constructor
    · intro some
      obtain ⟨i, looping⟩ := List.exists_mem_of_ne_nil _ some
      have inside : i < a.states.length := EmptyMatching.lt_of_looping looping
      have present := @Assembly.tokenizer_state g options i a _ (List.getElem?_eq_getElem inside)
      exact ⟨i, _, present, (marked i _ present).mpr looping⟩
    · rintro ⟨i, s, present, mayLoop⟩
      exact List.ne_nil_of_mem ((marked i s present).mp mayLoop)
  · have some : m.search.reports ≠ [] := mt m.search_justified.reported.mp (flag.mp loops)
    obtain ⟨r, member⟩ := List.exists_mem_of_ne_nil _ some
    obtain ⟨d, rfl, code, severity⟩ := m.search_justified.warnings r member
    exact ⟨d, log.pending_reportAll member (by rw [Diagnostic.isError, severity]; rfl), code⟩
  · refine m.search_justified.reported.mpr (Classical.byContradiction fun loops => ?_)
    rw [flag.mpr loops] at calm
    cases calm

end TokenTables
