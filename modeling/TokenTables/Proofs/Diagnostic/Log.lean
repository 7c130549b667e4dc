import TokenTables.Diagnostic.Log

/-!
Whether a log forbids a result. A log may drop errors past its limit or errors it holds already, but never the first
one, so it forbids a result just when an error was reported to it, and then an error is among what comes out of it.
-/

namespace TokenTables

namespace Location

theorem before_trans {a b c : Location} (first : a.before b = true) (second : b.before c = true) :
    a.before c = true := by
  simp only [before, Bool.or_eq_true, Bool.and_eq_true, decide_eq_true_eq, beq_iff_eq] at *
  omega

theorem before_total (a b : Location) : (a.before b || b.before a) = true := by
  simp only [before, Bool.or_eq_true, Bool.and_eq_true, decide_eq_true_eq, beq_iff_eq]
  omega

/-- Nothing but what was not written anywhere comes before all else. -/
theorem eq_unknown_of_before {l : Location} (early : l.before unknown = true) : l = unknown := by
  obtain ⟨line, column⟩ := l
  obtain ⟨rfl, rfl⟩ : line = 0 ∧ column = 0 := by simpa [before, unknown] using early
  rfl

end Location

/-- Reports an error. -/
def Report.isError : Report → Bool
  | .always d | .once d => d.isError

namespace DiagnosticLog

variable {log : DiagnosticLog} {d : Diagnostic} {reports : List Report}

/-- The errors counted are those pending. -/
def Counted (log : DiagnosticLog) : Prop := log.errors = (log.pending.filter (·.isError)).length

theorem add_counted (counted : log.Counted) : (log.add d).1.Counted := by
  unfold Counted at counted ⊢
  unfold add
  split
  · cases isError : d.isError <;> simp [isError, counted]
  · exact counted

theorem report_counted (counted : log.Counted) (r : Report) : (log.report r).Counted := by
  cases r with
  | always d => exact add_counted counted
  | once d =>
    simp only [report, addOnce]
    split
    · exact counted
    · exact add_counted counted

theorem reportAll_counted (counted : log.Counted) (reports : List Report) : (log.reportAll reports).Counted := by
  induction reports generalizing log with
  | nil => exact counted
  | cons r rest ih => exact ih (report_counted counted r)

/-- A report adds an error to the count only if it is one, and never takes one away. -/
theorem errors_add (log : DiagnosticLog) (d : Diagnostic) :
    (log.add d).1.errors = log.errors ∨ d.isError = true ∧ (log.add d).1.errors = log.errors + 1 := by
  unfold add
  split
  · cases isError : d.isError with
    | true => exact .inr ⟨rfl, by simp⟩
    | false => exact .inl (by simp)
  · exact .inl rfl

theorem errors_report (log : DiagnosticLog) (r : Report) :
    (log.report r).errors = log.errors ∨ r.isError = true ∧ (log.report r).errors = log.errors + 1 := by
  cases r with
  | always d => exact errors_add log d
  | once d =>
    simp only [report, addOnce]
    split
    · exact .inl rfl
    · exact errors_add { log with reportedOnce := d.code :: log.reportedOnce } d

theorem errors_le_reportAll (log : DiagnosticLog) (reports : List Report) :
    log.errors ≤ (log.reportAll reports).errors := by
  induction reports generalizing log with
  | nil => exact Nat.le_refl _
  | cons r rest ih =>
    have later : (log.report r).errors ≤ (log.reportAll (r :: rest)).errors := ih (log.report r)
    rcases errors_report log r with same | ⟨_, more⟩ <;> omega

/-- Without errors the count stays as it is. -/
theorem errors_reportAll_of_harmless (harmless : ∀ r ∈ reports, r.isError = false) :
    (log.reportAll reports).errors = log.errors := by
  induction reports generalizing log with
  | nil => rfl
  | cons r rest ih =>
    obtain ⟨here, later⟩ := List.forall_mem_cons.mp harmless
    refine (ih later).trans ?_
    rcases errors_report log r with same | ⟨isError, _⟩
    · exact same
    · rw [here] at isError
      cases isError

/-- An error is counted, unless one was before. -/
theorem errors_add_error (counted : log.Counted) (isError : d.isError = true) : 0 < (log.add d).1.errors := by
  by_cases before : 0 < log.errors
  · rcases errors_add log d with same | ⟨_, more⟩ <;> omega
  · have none : log.errors = 0 := Nat.eq_zero_of_not_pos before
    have new : d ∉ log.pending := by
      intro pending
      unfold Counted at counted
      rw [none, eq_comm, List.length_eq_zero_iff, List.filter_eq_nil_iff] at counted
      exact counted d pending isError
    have room : log.isFull = false := by
      unfold isFull
      rw [none]
      cases log.policy.maxErrors <;> rfl
    have accepted : log.accepts d = true := by simp [accepts, room, new]
    simp [add, accepted, isError]

/-- Among reports that always count the log misses no error. -/
theorem forbidsResult_reportAll (counted : log.Counted) (ds : List Diagnostic) :
    (log.reportAll (ds.map .always)).forbidsResult = true ↔ log.forbidsResult = true ∨ ∃ d ∈ ds, d.isError = true := by
  simp only [forbidsResult, refuses, decide_eq_true_eq]
  constructor
  · intro counts
    by_cases some : ∃ d ∈ ds, d.isError = true
    · exact .inr some
    · refine .inl ?_
      rwa [errors_reportAll_of_harmless] at counts
      simpa [Report.isError] using some
  · rintro (before | ⟨d, member, isError⟩)
    · exact Nat.lt_of_lt_of_le before (errors_le_reportAll log _)
    · obtain ⟨earlier, later, rfl⟩ := List.append_of_mem member
      rw [List.map_append, List.map_cons, reportAll, List.foldl_append, List.foldl_cons]
      exact Nat.lt_of_lt_of_le (errors_add_error (reportAll_counted counted _) isError) (errors_le_reportAll _ _)

theorem counted_empty (policy : LogPolicy) : ({ policy } : DiagnosticLog).Counted := rfl

/-- Nor does it forbid a result for anything but an error. -/
theorem forbidsResult_reportAll_of_harmless (log : DiagnosticLog) (harmless : ∀ r ∈ reports, r.isError = false) :
    (log.reportAll reports).forbidsResult = log.forbidsResult := by
  rw [forbidsResult, forbidsResult, errors_reportAll_of_harmless harmless]

/-! ### What a log keeps -/

theorem pending_add_old (log : DiagnosticLog) (d : Diagnostic) : log.pending ⊆ (log.add d).1.pending := by
  unfold add
  split
  · exact List.subset_append_left _ _
  · exact List.Subset.refl _

theorem pending_report_old (log : DiagnosticLog) (r : Report) : log.pending ⊆ (log.report r).pending := by
  cases r with
  | always d => exact pending_add_old log d
  | once d =>
    simp only [report, addOnce]
    split
    · exact List.Subset.refl _
    · exact pending_add_old { log with reportedOnce := d.code :: log.reportedOnce } d

theorem pending_reportAll_old (log : DiagnosticLog) (reports : List Report) :
    log.pending ⊆ (log.reportAll reports).pending :=
  List.foldlRecOn (motive := fun after : DiagnosticLog => log.pending ⊆ after.pending) _ _ (List.Subset.refl _)
    fun after before r _ => List.Subset.trans before (pending_report_old after r)

/-- What is no error is dropped only if it is there already. -/
theorem pending_add (log : DiagnosticLog) (noError : d.isError = false) : d ∈ (log.add d).1.pending := by
  unfold add
  split
  · exact List.mem_append_right _ List.mem_cons_self
  · rename_i dropped
    simp only [accepts, noError, Bool.false_and, Bool.not_false, Bool.true_and, Bool.not_eq_true, Bool.not_eq_false',
      Bool.and_eq_true, List.contains_iff_mem] at dropped
    exact dropped.2

theorem pending_reportAll (log : DiagnosticLog) (member : .always d ∈ reports) (noError : d.isError = false) :
    d ∈ (log.reportAll reports).pending := by
  obtain ⟨before, after, rfl⟩ := List.append_of_mem member
  rw [reportAll, List.foldl_append, List.foldl_cons]
  exact pending_reportAll_old _ after (pending_add _ noError)

/-- A log without limits takes in everything. -/
theorem accepts_unlimited (unlimited : log.policy = .unlimited) (d : Diagnostic) : log.accepts d = true := by
  simp [accepts, isFull, unlimited, LogPolicy.unlimited]

theorem pending_reportAll_unlimited (unlimited : log.policy = .unlimited) (ds : List Diagnostic) :
    (log.reportAll (ds.map .always)).pending = log.pending ++ ds := by
  induction ds generalizing log with
  | nil => exact (List.append_nil _).symm
  | cons d rest ih =>
    have taken : log.report (.always d) =
        { log with pending := log.pending ++ [d], errors := if d.isError then log.errors + 1 else log.errors } := by
      rw [report, add, if_pos (accepts_unlimited unlimited d)]
    rw [List.map_cons, reportAll, List.foldl_cons, taken]
    exact (ih (by exact unlimited)).trans (List.append_assoc log.pending [d] rest)

/-! ### What comes out of a log -/

/-- Diagnostics by location: what follows a known place is at a place as well, and not at an earlier one. -/
def ByLocation (ds : List Diagnostic) : Prop :=
  ds.Pairwise fun a b => ∀ l, a.location? = some l →
    l = .unknown ∨ ∃ later, b.location? = some later ∧ l.before later = true

theorem sorted_inOrder (log : DiagnosticLog) :
    log.sorted.Pairwise fun a b => a.sortLocation.before b.sortLocation = true := by
  apply List.pairwise_mergeSort
  · exact fun a b c => Location.before_trans
  · exact fun a b => Location.before_total _ _

theorem sorted_byLocation (log : DiagnosticLog) : ByLocation log.sorted := by
  refine log.sorted_inOrder.imp fun {a b} early l place => ?_
  simp only [Diagnostic.sortLocation, place, Option.getD_some] at early
  cases later : b.location? with
  | none =>
    rw [later] at early
    exact .inl (Location.eq_unknown_of_before early)
  | some l' =>
    rw [later] at early
    exact .inr ⟨l', rfl, early⟩

/-- An error comes out of the log just when it forbids a result. -/
theorem forbidsResult_iff_sorted (counted : log.Counted) :
    log.forbidsResult = true ↔ ∃ d ∈ log.sorted, d.isError = true := by
  unfold Counted at counted
  have mem_sorted : ∀ d, d ∈ log.sorted ↔ d ∈ log.pending := fun d => List.mem_mergeSort
  simp only [forbidsResult, refuses, decide_eq_true_eq, counted, List.length_pos_iff_exists_mem, List.mem_filter,
    mem_sorted]

end DiagnosticLog

end TokenTables
