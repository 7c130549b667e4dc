import Mathlib.Data.List.DropRight
import Mathlib.Data.List.Nodup
import TokenTables.Proofs.Diagnostic.Log

/-!
A log of diagnostics under any calls. After each of them its promises hold of what came since the last flush: errors are
counted and limited, repeats and codes that count once are kept out and nothing else that is no error, an emitted error
forbids a result, and a flush hands out in order of location what was taken in.
-/

namespace TokenTables

namespace Report

def diagnostic : Report → Diagnostic
  | .always d | .once d => d

/-- Of diagnostics reported like this only the first with this code counts. -/
def isOnceOf (code : Code) : Report → Bool
  | .always _ => false
  | .once d => d.code == code

theorem isError_diagnostic : ∀ r : Report, r.diagnostic.isError = r.isError
  | .always _ | .once _ => rfl

end Report

/-- What is asked of a log. -/
inductive LogCall where
  | report (r : Report)
  | emit (d : Diagnostic) (isError : d.isError = true)
  | flush

namespace LogCall

def isFlush : LogCall → Bool
  | flush => true
  | _ => false

/-- An emitted error is reported as any other diagnostic is. -/
def report? : LogCall → Option Report
  | report r => some r
  | emit d _ => some (.always d)
  | flush => none

/-- The calls after the last flush. -/
def sinceFlush (calls : List LogCall) : List LogCall := calls.rtakeWhile fun call => !call.isFlush

/-- What was reported after the last flush. -/
def reportsSince (calls : List LogCall) : List Report := (sinceFlush calls).filterMap report?

theorem reportsSince_flush (calls : List LogCall) : reportsSince (calls ++ [flush]) = [] := by
  rw [reportsSince, sinceFlush, List.rtakeWhile_concat]
  rfl

theorem reportsSince_concat {call : LogCall} {r : Report} (reports : call.report? = some r) (calls : List LogCall) :
    reportsSince (calls ++ [call]) = reportsSince calls ++ [r] := by
  have noFlush : (!call.isFlush) = true := by
    cases call with
    | flush => cases reports
    | report | emit => rfl
  rw [reportsSince, sinceFlush, List.rtakeWhile_concat, if_pos noFlush, List.filterMap_append, List.filterMap_cons, reports]
  rfl

theorem exists_isOnceOf_iff {calls : List LogCall} {code : Code} :
    (∃ r ∈ reportsSince calls, r.isOnceOf code = true) ↔
      ∃ d, .report (.once d) ∈ sinceFlush calls ∧ d.code = code := by
  constructor
  · rintro ⟨r, reported, counts⟩
    obtain ⟨call, made, reports⟩ := List.mem_filterMap.mp reported
    cases r with
    | always d => cases counts
    | once d =>
      refine ⟨d, ?_, beq_iff_eq.mp counts⟩
      cases call with
      | report s =>
        obtain rfl := Option.some.inj reports
        exact made
      | emit | flush => cases reports
  · rintro ⟨d, made, rfl⟩
    exact ⟨.once d, List.mem_filterMap.mpr ⟨_, made, rfl⟩, beq_self_eq_true d.code⟩

end LogCall

namespace DiagnosticLog

variable {log : DiagnosticLog} {policy : LogPolicy} {d : Diagnostic} {r : Report} {reports : List Report} {code : Code}

/-- What the log says to a report: whether it is taken in. -/
def takes (log : DiagnosticLog) : Report → Bool
  | .always d => (log.add d).2
  | .once d => (log.addOnce d).2

/-- The reports taken in as they are made one after another. -/
def takenIn (log : DiagnosticLog) : List Report → List Report
  | [] => []
  | r :: rest => (if log.takes r then [r] else []) ++ (log.report r).takenIn rest

def call (log : DiagnosticLog) : LogCall → DiagnosticLog
  | .report r => log.report r
  | .emit d _ => (log.emit d).1
  | .flush => log.flush.1

/-- A new log after these calls. -/
def afterCalls (policy : LogPolicy) (calls : List LogCall) : DiagnosticLog := calls.foldl call { policy }

/-! ### One report -/

/-- All that a report can lead to: whether it is taken in, and what the log becomes. -/
inductive Reported (log : DiagnosticLog) (r : Report) : Bool → DiagnosticLog → Prop where
  | taken {codes : List Code} (accepted : log.accepts r.diagnostic = true)
      (new : ∀ code, r.isOnceOf code = true → code ∉ log.reportedOnce)
      (noted : ∀ code, code ∈ codes ↔ code ∈ log.reportedOnce ∨ r.isOnceOf code = true) :
      Reported log r true
        { log with
          pending := log.pending ++ [r.diagnostic]
          errors := if r.isError then log.errors + 1 else log.errors
          reportedOnce := codes }
  | refused {codes : List Code}
      (why : log.accepts r.diagnostic = false ∨ ∃ code ∈ log.reportedOnce, r.isOnceOf code = true)
      (noted : ∀ code, code ∈ codes ↔ code ∈ log.reportedOnce ∨ r.isOnceOf code = true) :
      Reported log r false { log with reportedOnce := codes }

theorem reported_always (log : DiagnosticLog) (d : Diagnostic) :
    log.Reported (.always d) (log.add d).2 (log.add d).1 := by
  have noted : ∀ code, code ∈ log.reportedOnce ↔ code ∈ log.reportedOnce ∨ (Report.always d).isOnceOf code = true :=
    fun code => by simp [Report.isOnceOf]
  unfold add
  split
  · rename_i accepted
    exact .taken accepted (fun code once => by cases once) noted
  · rename_i unaccepted
    exact .refused (.inl (Bool.eq_false_iff.mpr unaccepted)) noted

theorem reported_once (log : DiagnosticLog) (d : Diagnostic) :
    log.Reported (.once d) (log.addOnce d).2 (log.addOnce d).1 := by
  have ofCode : ∀ code, (Report.once d).isOnceOf code = true ↔ code = d.code := fun code => by
    rw [Report.isOnceOf, beq_iff_eq, eq_comm]
  have noted : ∀ code, code ∈ d.code :: log.reportedOnce ↔
      code ∈ log.reportedOnce ∨ (Report.once d).isOnceOf code = true := fun code => by
    rw [ofCode, List.mem_cons, or_comm]
  unfold addOnce
  split
  · rename_i repeated
    have before : d.code ∈ log.reportedOnce := List.contains_iff_mem.mp repeated
    refine .refused (.inr ⟨d.code, before, (ofCode _).mpr rfl⟩) fun code => ?_
    rw [ofCode]
    exact ⟨.inl, fun known => known.elim id fun same => same ▸ before⟩
  · rename_i unnoted
    unfold add
    split
    · rename_i accepted
      refine .taken accepted (fun code once => ?_) noted
      rw [(ofCode code).mp once]
      exact mt List.contains_iff_mem.mpr unnoted
    · rename_i unaccepted
      exact .refused (.inl (Bool.eq_false_iff.mpr unaccepted)) noted

theorem reported (log : DiagnosticLog) : ∀ r : Report, log.Reported r (log.takes r) (log.report r)
  | .always d => log.reported_always d
  | .once d => log.reported_once d

theorem accepts_iff : log.accepts d = true ↔
    (d.isError = true → log.isFull = false) ∧ (log.policy.dropRepeats = true → d ∉ log.pending) := by
  simp only [accepts, Bool.and_eq_true, Bool.not_eq_true', Bool.and_eq_false_imp, List.contains_eq_mem,
    decide_eq_false_iff_not]

/-- What is no error is refused as a repeat or not at all. -/
theorem accepts_eq_false_iff (noError : d.isError = false) :
    log.accepts d = false ↔ log.policy.dropRepeats = true ∧ d ∈ log.pending := by
  rw [← Bool.not_eq_true, accepts_iff, noError]
  simp

theorem isFull_eq_false_iff : log.isFull = false ↔ (log.policy.maxErrors ≠ 0 → log.errors < log.policy.maxErrors) := by
  simp [isFull, Nat.pos_iff_ne_zero]

/-- There are no more errors than the limit, if there is one. -/
def WithinLimit (log : DiagnosticLog) : Prop := log.policy.maxErrors ≠ 0 → log.errors ≤ log.policy.maxErrors

/-- Where repeats are dropped no two pending diagnostics are equal. -/
def NoRepeats (log : DiagnosticLog) : Prop := log.policy.dropRepeats = true → log.pending.Nodup

/-- Of the diagnostics that count once at most one of each code is taken in, and then the code is noted. -/
def OncePerCode (log : DiagnosticLog) (taken : List Report) : Prop :=
  ∀ code, taken.countP (·.isOnceOf code) ≤ if code ∈ log.reportedOnce then 1 else 0

namespace Reported

variable {answer : Bool} {after : DiagnosticLog}

theorem refused_iff (outcome : log.Reported r answer after) : answer = false ↔
    log.accepts r.diagnostic = false ∨ ∃ code ∈ log.reportedOnce, r.isOnceOf code = true := by
  cases outcome with
  | taken accepted new _ =>
    simp only [accepted, reduceCtorEq, false_or, false_iff]
    exact fun ⟨code, known, counts⟩ => new code counts known
  | refused why _ => simp only [why]

theorem policy_eq (outcome : log.Reported r answer after) : after.policy = log.policy := by
  cases outcome <;> rfl

theorem pending_eq (outcome : log.Reported r answer after) :
    after.pending = log.pending ++ if answer then [r.diagnostic] else [] := by
  cases outcome with
  | taken => rfl
  | refused => exact (List.append_nil _).symm

theorem mem_reportedOnce (outcome : log.Reported r answer after) :
    code ∈ after.reportedOnce ↔ code ∈ log.reportedOnce ∨ r.isOnceOf code = true := by
  cases outcome with
  | taken _ _ noted | refused _ noted => exact noted code

theorem withinLimit (outcome : log.Reported r answer after) (within : log.WithinLimit) : after.WithinLimit := by
  cases outcome with
  | taken accepted _ _ =>
    intro limit
    show (if r.isError then log.errors + 1 else log.errors) ≤ log.policy.maxErrors
    split
    · rename_i isError
      have room := (accepts_iff.mp accepted).1 (r.isError_diagnostic.trans isError)
      exact isFull_eq_false_iff.mp room limit
    · exact within limit
  | refused => exact within

theorem noRepeats (outcome : log.Reported r answer after) (distinct : log.NoRepeats) : after.NoRepeats := by
  cases outcome with
  | taken accepted _ _ =>
    intro drop
    have new : r.diagnostic ∉ log.pending := (accepts_iff.mp accepted).2 drop
    show (log.pending ++ [r.diagnostic]).Nodup
    rw [← List.concat_eq_append]
    exact List.Nodup.concat new (distinct drop)
  | refused => exact distinct

theorem oncePerCode {taken : List Report} (outcome : log.Reported r answer after) (once : log.OncePerCode taken) :
    after.OncePerCode (taken ++ if answer then [r] else []) := by
  intro code
  have before := once code
  have noted : code ∈ after.reportedOnce ↔ _ := outcome.mem_reportedOnce
  cases counts : r.isOnceOf code with
  | false =>
    have same : code ∈ after.reportedOnce ↔ code ∈ log.reportedOnce := by simp [noted, counts]
    have unchanged : (if answer then [r] else []).countP (·.isOnceOf code) = 0 := by
      cases answer <;> simp [counts]
    rw [List.countP_append, unchanged, Nat.add_zero]
    simpa only [same] using before
  | true =>
    rw [if_pos (noted.mpr (.inr counts)), List.countP_append]
    cases outcome with
    | taken _ new _ =>
      -- Nothing of this code was taken in before, or the code would be noted.
      rw [if_neg (new code counts)] at before
      simpa [counts] using before
    | refused =>
      have atMostOne : (if code ∈ log.reportedOnce then 1 else 0) ≤ 1 := by split <;> omega
      exact Nat.le_trans before atMostOne

end Reported

/-! ### Any number of reports -/

/-- What a log that was new keeps to while these reports are made and `taken` are those it takes in. -/
structure Upkeep (policy : LogPolicy) (reports taken : List Report) (log : DiagnosticLog) : Prop where
  obeys : log.policy = policy
  /-- The errors counted are those pending. -/
  counted : log.Counted
  limited : log.WithinLimit
  distinct : log.NoRepeats
  /-- What was taken in is pending, in order of arrival. -/
  kept : log.pending = taken.map Report.diagnostic
  noted : ∀ code, code ∈ log.reportedOnce ↔ ∃ r ∈ reports, r.isOnceOf code = true
  once : log.OncePerCode taken
  /-- An error that always counts forbids a result, taken in or not. -/
  forbids : ∀ d, .always d ∈ reports → d.isError = true → log.forbidsResult = true

theorem upkeep_new (policy : LogPolicy) : Upkeep policy [] [] { policy } where
  obeys := rfl
  counted := counted_empty policy
  limited _ := Nat.zero_le _
  distinct _ := .nil
  kept := rfl
  noted code := by simp
  once code := Nat.zero_le _
  forbids d reported := nomatch reported

theorem forbidsResult_report (before : log.forbidsResult = true) (r : Report) : (log.report r).forbidsResult = true := by
  simp only [forbidsResult, refuses, decide_eq_true_eq] at before ⊢
  rcases errors_report log r with same | ⟨_, more⟩ <;> omega

theorem Upkeep.report {taken : List Report} (upkeep : Upkeep policy reports taken log) (r : Report) :
    Upkeep policy (reports ++ [r]) (taken ++ if log.takes r then [r] else []) (log.report r) := by
  have outcome := log.reported r
  refine ⟨outcome.policy_eq.trans upkeep.obeys, report_counted upkeep.counted r, outcome.withinLimit upkeep.limited,
    outcome.noRepeats upkeep.distinct, ?_, fun code => ?_, outcome.oncePerCode upkeep.once, fun d reported isError => ?_⟩
  · rw [outcome.pending_eq, upkeep.kept, List.map_append]
    cases log.takes r <;> rfl
  · simp only [outcome.mem_reportedOnce, upkeep.noted, List.mem_append, List.mem_singleton, or_and_right, exists_or,
      exists_eq_left]
  · rcases List.mem_append.mp reported with before | now
    · exact forbidsResult_report (upkeep.forbids d before isError) r
    · obtain rfl := List.mem_singleton.mp now
      exact decide_eq_true (errors_add_error upkeep.counted isError)

theorem reportAll_concat (log : DiagnosticLog) (reports : List Report) (r : Report) :
    log.reportAll (reports ++ [r]) = (log.reportAll reports).report r := by
  rw [reportAll, List.foldl_append]
  rfl

theorem takenIn_concat (log : DiagnosticLog) (reports : List Report) (r : Report) :
    log.takenIn (reports ++ [r]) = log.takenIn reports ++ if (log.reportAll reports).takes r then [r] else [] := by
  induction reports generalizing log with
  | nil => exact List.append_nil _
  | cons first rest ih =>
    have later : (log.report first).takenIn (rest ++ [r]) = _ := ih (log.report first)
    rw [List.cons_append, takenIn, takenIn, later, List.append_assoc]
    rfl

theorem upkeep_reportAll (policy : LogPolicy) (reports : List Report) :
    Upkeep policy reports (takenIn { policy } reports) (reportAll { policy } reports) := by
  induction reports using List.reverseRecOn with
  | nil => exact upkeep_new policy
  | append_singleton reports r ih =>
    rw [takenIn_concat, reportAll_concat]
    exact ih.report r

/-! ### Flushes between the reports -/

/-- Only what came after the last flush shows in the log. -/
theorem afterCalls_eq (policy : LogPolicy) (calls : List LogCall) :
    afterCalls policy calls = reportAll { policy } (LogCall.reportsSince calls) := by
  induction calls using List.reverseRecOn with
  | nil => rfl
  | append_singleton calls call ih =>
    have last : afterCalls policy (calls ++ [call]) = (afterCalls policy calls).call call := by
      rw [afterCalls, List.foldl_append]
      rfl
    rw [last]
    cases call with
    | flush =>
      have obeys : (afterCalls policy calls).policy = policy := by
        rw [ih]
        exact (upkeep_reportAll policy _).obeys
      rw [LogCall.reportsSince_flush]
      show ({ policy := (afterCalls policy calls).policy } : DiagnosticLog) = { policy }
      rw [obeys]
    | report r =>
      rw [LogCall.reportsSince_concat rfl, reportAll_concat, ← ih]
      rfl
    | emit d isError =>
      rw [LogCall.reportsSince_concat rfl, reportAll_concat, ← ih]
      rfl

/-! ### What a flush hands out -/

/-- `sorted` is `ds` by location, those at one location in the order they had. -/
structure StablySorted (ds sorted : List Diagnostic) : Prop where
  same : sorted.Perm ds
  inOrder : sorted.Pairwise fun a b => a.sortLocation.before b.sortLocation = true
  stable : ∀ l, sorted.filter (·.sortLocation == l) = ds.filter (·.sortLocation == l)

theorem stablySorted (log : DiagnosticLog) : StablySorted log.pending log.sorted where
  same := List.mergeSort_perm _ _
  inOrder := log.sorted_inOrder
  stable l := by
    let there := fun d : Diagnostic => d.sortLocation == l
    -- What is at one place is in order as it stands, and sorting keeps the order of what is.
    have kept : (log.pending.filter there).Sublist log.sorted := by
      apply List.sublist_mergeSort
      · exact fun a b c => Location.before_trans
      · exact fun a b => Location.before_total _ _
      · refine List.pairwise_iff_forall_sublist.mpr fun {a b} pair => ?_
        have hereA := pair.subset List.mem_cons_self
        have hereB := pair.subset (List.mem_cons_of_mem _ List.mem_cons_self)
        obtain rfl : a.sortLocation = l := beq_iff_eq.mp (List.mem_filter.mp hereA).2
        have same : b.sortLocation = a.sortLocation := beq_iff_eq.mp (List.mem_filter.mp hereB).2
        simpa [same] using Location.before_total a.sortLocation a.sortLocation
      · exact List.filter_sublist
    have sublist : (log.pending.filter there).Sublist (log.sorted.filter there) := by
      have filtered := kept.filter there
      rwa [List.filter_eq_self.mpr fun d here => (List.mem_filter.mp here).2] at filtered
    exact (sublist.eq_of_length ((List.mergeSort_perm _ _).filter there).length_eq.symm).symm

/-! ### All calls -/

/-- What is promised of a log after these calls. -/
structure KeepsPromises (policy : LogPolicy) (calls : List LogCall) (log : DiagnosticLog) : Prop
    extends Upkeep policy (LogCall.reportsSince calls) (takenIn { policy } (LogCall.reportsSince calls)) log where
  /-- An error emitted since the last flush forbids a result, even if it was dropped. -/
  emitted : ∀ d isError, .emit d isError ∈ LogCall.sinceFlush calls → log.forbidsResult = true
  /-- What is no error is refused as a repeat of what is pending, -/
  refused : ∀ d, d.isError = false → ((log.add d).2 = false ↔ policy.dropRepeats = true ∧ d ∈ log.pending)
  /-- and where only the first of a code counts for its code as well. -/
  refusedOnce : ∀ d, d.isError = false → ((log.addOnce d).2 = false ↔
    (∃ earlier, .report (.once earlier) ∈ LogCall.sinceFlush calls ∧ earlier.code = d.code) ∨
      policy.dropRepeats = true ∧ d ∈ log.pending)
  handedOut : StablySorted log.pending log.flush.2
  renewed : log.flush.1 = { policy }

/-- A log keeps its promises through any calls. -/
theorem log_keeps_promises (policy : LogPolicy) (calls : List LogCall) :
    KeepsPromises policy calls (afterCalls policy calls) := by
  rw [afterCalls_eq]
  have upkeep := upkeep_reportAll policy (LogCall.reportsSince calls)
  generalize reportAll { policy } (LogCall.reportsSince calls) = log at upkeep ⊢
  refine ⟨upkeep, fun d isError emitted => ?_, fun d noError => ?_, fun d noError => ?_, log.stablySorted, ?_⟩
  · exact upkeep.forbids d (List.mem_filterMap.mpr ⟨_, emitted, rfl⟩) isError
  · rw [(log.reported_always d).refused_iff, Report.diagnostic, accepts_eq_false_iff noError, upkeep.obeys]
    simp [Report.isOnceOf]
  · have noted : (∃ code ∈ log.reportedOnce, (Report.once d).isOnceOf code = true) ↔ d.code ∈ log.reportedOnce := by
      simp [Report.isOnceOf]
    rw [(log.reported_once d).refused_iff, noted, upkeep.noted, LogCall.exists_isOnceOf_iff, Report.diagnostic,
      accepts_eq_false_iff noError, upkeep.obeys, or_comm]
  · show ({ policy := log.policy } : DiagnosticLog) = { policy }
    rw [upkeep.obeys]

end DiagnosticLog

end TokenTables
