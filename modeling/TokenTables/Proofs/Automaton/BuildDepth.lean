import Mathlib.Data.List.ProdSigma
import TokenTables.Proofs.Automaton.BuildFaults
import TokenTables.Proofs.Regex.Subterms

/-!
How deep building goes. If any bound on the nesting of expressions is enough then so is the one that is used, since an
expression that comes up again inside the same labels would go on for ever.
-/

namespace TokenTables.Automaton

variable {defs : Definitions} {depth : Nat} {task t : Task} {tasks : List Task}

/-- The nesting was not deep enough for an answer. -/
def CutOff (fault : Option RegexFault) : Prop := ∃ loc, fault = some (.endlessExpansion loc)

/-- The dry run comes to an answer within `depth` levels. -/
def Enough (defs : Definitions) (depth : Nat) (task : Task) : Prop := ¬ CutOff (fault? defs depth task)

theorem not_cutOff_none : ¬ CutOff none := by simp [CutOff]

/-! ### What is wrong at the top is an answer -/

theorem outOfRange?_not_cutOff {loc : Location} {chars : List Char} : ¬ CutOff (outOfRange? loc chars) := by
  rintro ⟨at', same⟩
  obtain ⟨c, _, impossible⟩ := Option.map_eq_some_iff.mp same
  cases impossible

theorem fault?_not_cutOff {loc : Location} {item : ClassPart} : ¬ CutOff (item.fault? loc) := by
  unfold ClassPart.fault?
  split
  · rintro ⟨at', same⟩
    cases same
  · exact outOfRange?_not_cutOff

theorem findSome?_not_cutOff {α : Type} {f : α → Option RegexFault} {xs : List α} (each : ∀ x ∈ xs, ¬ CutOff (f x)) :
    ¬ CutOff (xs.findSome? f) := by
  rintro ⟨at', same⟩
  obtain ⟨x, member, found⟩ := List.exists_of_findSome?_eq_some same
  exact each x member ⟨at', found⟩

theorem charsFault?_not_cutOff {r : Regex} : ¬ CutOff (charsFault? r) := by
  unfold charsFault?
  cases singleChars? r with
  | none => exact not_cutOff_none
  | some cls => exact findSome?_not_cutOff fun _ _ => fault?_not_cutOff

theorem except_bind_error {ε α β : Type} {x : Except ε α} {f : α → Except ε β} {e : ε} (run : (x >>= f) = .error e) :
    x = .error e ∨ ∃ a, x = .ok a ∧ f a = .error e := by
  cases x with
  | error other =>
    cases run
    exact .inl rfl
  | ok a => exact .inr ⟨a, rfl, run⟩

theorem spliceChoices_error {active splicing : List String} {alternatives : List Regex} {fault : RegexFault}
    (stopped : spliceChoices defs active splicing alternatives = .error fault) :
    ∃ label loc, fault = .circularReference label loc := by
  induction splicing, alternatives using spliceChoices.induct defs active with
  | case1 splicing =>
    rw [spliceChoices] at stopped
    cases stopped
  | case2 splicing loc inner rest ihInner ihRest =>
    rw [spliceChoices] at stopped
    rcases except_bind_error stopped with first | ⟨_, _, stopped⟩
    · exact ihInner first
    rcases except_bind_error stopped with second | ⟨_, _, impossible⟩
    · exact ihRest second
    · cases impossible
  | case3 splicing loc label rest written inner found fresh ihInner ihRest =>
    rw [spliceChoices_reference, found] at stopped
    dsimp only at stopped
    rw [if_pos fresh] at stopped
    rcases except_bind_error stopped with first | ⟨_, _, stopped⟩
    · exact ihInner first
    rcases except_bind_error stopped with second | ⟨_, _, impossible⟩
    · exact ihRest second
    · cases impossible
  | case4 splicing loc label rest written inner found stale =>
    rw [spliceChoices_reference, found] at stopped
    dsimp only at stopped
    rw [if_neg stale] at stopped
    exact ⟨label, loc, (Except.error.inj stopped).symm⟩
  | case5 splicing loc label rest other ihRest =>
    rw [spliceChoices_reference] at stopped
    split at stopped
    · rename_i found
      exact absurd found (other _ _)
    · rcases except_bind_error stopped with second | ⟨_, _, impossible⟩
      · exact ihRest second
      · cases impossible
  | case6 splicing r rest notChoice notReference ihRest =>
    rw [spliceChoices] at stopped
    · rcases except_bind_error stopped with second | ⟨_, _, impossible⟩
      · exact ihRest second
      · cases impossible
    · exact notChoice
    · exact notReference

theorem nextTasks_error {fault : RegexFault} (wrong : nextTasks defs task = .error fault) : ¬ CutOff (some fault) := by
  obtain ⟨active, r⟩ := task
  unfold nextTasks at wrong
  cases r with
  | literal loc written =>
    dsimp only at wrong
    split at wrong
    · rename_i found
      cases wrong
      exact found ▸ outOfRange?_not_cutOff
    · cases wrong
  | charClass loc cls =>
    dsimp only at wrong
    split at wrong
    · rename_i found
      cases wrong
      exact found ▸ findSome?_not_cutOff fun _ _ => fault?_not_cutOff
    · cases wrong
  | sequence loc parts => cases wrong
  | choice loc alternatives =>
    dsimp only at wrong
    split at wrong
    · rename_i stopped
      cases wrong
      obtain ⟨label, at', rfl⟩ := spliceChoices_error stopped
      simp [CutOff]
    · split at wrong
      · rename_i found
        cases wrong
        exact found ▸ findSome?_not_cutOff fun _ _ => charsFault?_not_cutOff
      · cases wrong
  | repetition loc body least most =>
    dsimp only at wrong
    split at wrong
    · cases wrong
      simp [CutOff]
    · cases wrong
  | reference loc label =>
    dsimp only at wrong
    split at wrong
    · cases wrong
      simp [CutOff]
    · split at wrong
      · cases wrong
        simp [CutOff]
      · cases wrong

/-! ### What is met inside an expression -/

/-- The definition of `label` goes in the place of an alternative of some choice in `r`. -/
def Splices (defs : Definitions) (r : Regex) (label : String) : Prop :=
  (∃ loc inner, defs.lookup label = some (.choice loc inner)) ∧
    ∃ loc alternatives at', .choice loc alternatives ∈ r.subterms ∧ .reference at' label ∈ alternatives

/-- `s` is a proper part of `r`, or it is in a definition that is spliced into a choice in `r`. -/
inductive MetIn (defs : Definitions) (s r : Regex) : Prop where
  | part (part : Regex.PartOf s r)
  | spliced {label : String} {body : Regex} (splices : Splices defs r label) (found : defs.lookup label = some body)
    (member : s ∈ body.subterms)

theorem SplicesTo.metIn {alternatives all : List Regex} (spliced : SplicesTo defs alternatives all) {loc : Location}
    {whole : List Regex} (among : alternatives ⊆ whole) {a : Regex} (member : a ∈ all) :
    Relation.TransGen (MetIn defs) a (.choice loc whole) := by
  induction spliced generalizing loc whole with
  | nil => cases member
  | @nested written inner _ _ _ first second ihFirst ihSecond =>
    obtain ⟨here, later⟩ := List.cons_subset.mp among
    rcases List.mem_append.mp member with inside | outside
    · exact (ihFirst (List.Subset.refl inner) inside).tail (.part (Regex.partOf_choice here))
    · exact ihSecond later outside
  | @referenced at' written label inner _ _ _ found first second ihFirst ihSecond =>
    obtain ⟨here, later⟩ := List.cons_subset.mp among
    rcases List.mem_append.mp member with inside | outside
    · have splices : Splices defs (.choice loc whole) label :=
        ⟨⟨written, inner, found⟩, loc, whole, at', Regex.self_mem_subterms _, here⟩
      exact (ihFirst (List.Subset.refl inner) inside).tail (.spliced splices found (Regex.self_mem_subterms _))
    · exact ihSecond later outside
  | kept second ih =>
    obtain ⟨here, later⟩ := List.cons_subset.mp among
    rcases List.mem_cons.mp member with rfl | outside
    · exact .single (.part (Regex.partOf_choice here))
    · exact ih later outside

/-- Building the one task can lead to the other. -/
inductive Task.Leads (defs : Definitions) : Task → Task → Prop where
  | within {active : List String} {r s : Regex} (met : Relation.TransGen (MetIn defs) s r) :
    Leads defs ⟨active, r⟩ ⟨active, s⟩
  | enters {active : List String} {loc : Location} {label : String} {r : Regex} (found : defs.lookup label = some r)
    (fresh : label ∉ active) : Leads defs ⟨active, .reference loc label⟩ ⟨label :: active, r⟩

theorem leads_of_next (next : nextTasks defs task = .ok tasks) (member : t ∈ tasks) : task.Leads defs t := by
  cases steps_of_ok next with
  | literal => cases member
  | charClass => cases member
  | sequence =>
    obtain ⟨p, inside, rfl⟩ := List.mem_map.mp member
    exact .within (.single (.part (Regex.partOf_sequence inside)))
  | choice spliced =>
    obtain ⟨a, inside, rfl⟩ := List.mem_map.mp member
    exact .within (spliced.metIn (List.Subset.refl _) (List.mem_of_mem_filter inside))
  | repetition =>
    split at member
    · cases member
    · obtain rfl := List.mem_singleton.mp member
      exact .within (.single (.part Regex.partOf_repetition))
  | reference found fresh =>
    obtain rfl := List.mem_singleton.mp member
    exact .enters found fresh

/-! ### More levels than enough -/

theorem not_enough_zero : ¬ Enough defs 0 task := fun enough => enough ⟨_, rfl⟩

theorem enough_of_error {fault : RegexFault} (wrong : nextTasks defs task = .error fault) :
    Enough defs (depth + 1) task := by
  rw [Enough, fault?_error wrong]
  exact nextTasks_error wrong

theorem findSome?_agree {α : Type} {f g : α → Option RegexFault} {xs : List α}
    (agree : ∀ x ∈ xs, ¬ CutOff (g x) → f x = g x) (answers : ¬ CutOff (xs.findSome? g)) :
    xs.findSome? f = xs.findSome? g := by
  induction xs with
  | nil => rfl
  | cons x rest ih =>
    obtain ⟨here, later⟩ := List.forall_mem_cons.mp agree
    rw [List.findSome?_cons, List.findSome?_cons] at *
    cases first : g x with
    | some fault =>
      -- What comes after the first fault does not count.
      rw [first] at answers
      rw [here (first ▸ answers), first]
    | none =>
      rw [first] at answers
      rw [here (first ▸ not_cutOff_none), first]
      exact ih later answers

/-- With more levels the dry run comes to the same answer. -/
theorem Enough.succ (enough : Enough defs depth task) : fault? defs (depth + 1) task = fault? defs depth task := by
  induction depth generalizing task with
  | zero => exact absurd enough not_enough_zero
  | succ depth ih =>
    cases next : nextTasks defs task with
    | error fault => rw [fault?_error next, fault?_error next]
    | ok tasks =>
      unfold Enough at enough
      rw [fault?_ok next] at enough
      rw [fault?_ok next, fault?_ok next]
      exact findSome?_agree (fun t _ answers => ih answers) enough

theorem Enough.mono {more : Nat} (enough : Enough defs depth task) (deeper : depth ≤ more) : Enough defs more task := by
  induction deeper with
  | refl => exact enough
  | step _ ih =>
    rw [Enough, ih.succ]
    exact ih

/-! ### The levels needed -/

/-- `depth` levels are not enough, but one more is. -/
structure Needs (defs : Definitions) (depth : Nat) (task : Task) : Prop where
  few : ¬ Enough defs depth task
  enough : Enough defs (depth + 1) task

theorem Enough.needs (enough : Enough defs depth task) : ∃ fewer < depth, Needs defs fewer task := by
  induction depth with
  | zero => exact absurd enough not_enough_zero
  | succ depth ih =>
    by_cases already : Enough defs depth task
    · obtain ⟨fewer, less, needs⟩ := ih already
      exact ⟨fewer, Nat.lt_succ_of_lt less, needs⟩
    · exact ⟨depth, Nat.lt_succ_self depth, already, enough⟩

theorem Needs.not_lt {fewer : Nat} (needs : Needs defs depth task) (other : Needs defs fewer task) : ¬ fewer < depth :=
  fun less => needs.few (other.enough.mono less)

theorem Needs.next (needs : Needs defs (depth + 1) task) :
    ∃ tasks, nextTasks defs task = .ok tasks ∧ ∃ t ∈ tasks, Needs defs depth t := by
  cases next : nextTasks defs task with
  | error fault => exact absurd (enough_of_error next) needs.few
  | ok tasks =>
    refine ⟨tasks, rfl, ?_⟩
    by_contra nowhere
    have few := needs.few
    have enough := needs.enough
    unfold Enough at few enough
    rw [fault?_ok next] at few enough
    -- If one level less were enough for each task that counts then it would be for all of them.
    refine few (findSome?_agree (fun t member answers => ?_) enough ▸ enough)
    have already : Enough defs depth t := by
      by_contra needed
      exact nowhere ⟨t, member, needed, answers⟩
    exact already.succ.symm

/-! ### The bound -/

/-- What can come up while `r` is built. -/
def met (defs : Definitions) (r : Regex) : List Regex := r.subterms ++ defs.flatMap (·.2.subterms)

theorem length_met (defs : Definitions) (r : Regex) :
    (met defs r).length = defs.foldl (fun total d => total + d.2.subterms.length) r.subterms.length := by
  rw [met, List.length_append]
  generalize r.subterms.length = total
  induction defs generalizing total with
  | nil => rfl
  | cons d rest ih =>
    rw [List.foldl_cons, ← ih, List.flatMap_cons, List.length_append]
    omega

theorem definition_met {r body : Regex} {label : String} (found : defs.lookup label = some body) {s : Regex}
    (member : s ∈ body.subterms) : s ∈ met defs r :=
  List.mem_append_right _ (List.mem_flatMap.mpr ⟨(label, body), mem_of_lookup found, member⟩)

theorem subterm_met {r s p : Regex} (inside : s ∈ met defs r) (member : p ∈ s.subterms) : p ∈ met defs r := by
  rcases List.mem_append.mp inside with top | definition
  · exact List.mem_append_left _ (Regex.subterms_subset top member)
  · obtain ⟨d, written, below⟩ := List.mem_flatMap.mp definition
    exact List.mem_append_right _ (List.mem_flatMap.mpr ⟨d, written, Regex.subterms_subset below member⟩)

theorem MetIn.met {r s p : Regex} (inside : s ∈ met defs r) (metIn : MetIn defs p s) : p ∈ met defs r := by
  cases metIn with
  | part part => exact subterm_met inside (part.subterms p.self_mem_subterms)
  | spliced splices found member => exact definition_met found member

/-- A task that can come up while `r` is built. -/
structure Task.OnWay (defs : Definitions) (r : Regex) (task : Task) : Prop where
  regex : task.regex ∈ met defs r
  defined : task.active ⊆ defs.map (·.1)
  nodup : task.active.Nodup

theorem onWay_start {r : Regex} : Task.OnWay defs r ⟨[], r⟩ where
  regex := List.mem_append_left _ r.self_mem_subterms
  defined := List.nil_subset _
  nodup := List.nodup_nil

theorem Task.OnWay.leads {r : Regex} (onWay : task.OnWay defs r) (leads : task.Leads defs t) : t.OnWay defs r := by
  cases leads with
  | within metIn =>
    refine ⟨?_, onWay.defined, onWay.nodup⟩
    induction metIn using Relation.TransGen.head_induction_on with
    | single last => exact last.met onWay.regex
    | head first _ ih => exact first.met ih
  | enters found fresh =>
    refine ⟨definition_met found (Regex.self_mem_subterms _), ?_, List.nodup_cons.mpr ⟨fresh, onWay.nodup⟩⟩
    exact List.cons_subset.mpr ⟨List.mem_map_of_mem (mem_of_lookup found), onWay.defined⟩

/-- What tells the tasks of one chain apart, since labels are only added along it. -/
def Task.key (task : Task) : Nat × Regex := (task.active.length, task.regex)

theorem Task.OnWay.key {r : Regex} (onWay : task.OnWay defs r) :
    task.key ∈ List.range (defs.length + 1) ×ˢ met defs r := by
  have few := (onWay.nodup.subperm onWay.defined).length_le
  rw [List.length_map] at few
  exact List.pair_mem_product.mpr ⟨List.mem_range.mpr (Nat.lt_succ_of_le few), onWay.regex⟩

theorem Task.Leads.suffix (leads : task.Leads defs t) : task.active <:+ t.active := by
  cases leads with
  | within => exact List.suffix_refl _
  | enters => exact List.suffix_cons _ _

/-- A task that needs many levels begins a long chain of different tasks. -/
theorem Needs.chain {r : Regex} (needs : Needs defs depth task) (onWay : task.OnWay defs r) :
    ∃ chain : List Task, chain.length = depth + 1 ∧ (chain.map Task.key).Nodup ∧
      ∀ t ∈ chain, t.OnWay defs r ∧ task.active <:+ t.active ∧ ∃ levels ≤ depth, Needs defs levels t := by
  induction depth generalizing task with
  | zero =>
    refine ⟨[task], rfl, List.nodup_singleton _, List.forall_mem_singleton.mpr ?_⟩
    exact ⟨onWay, List.suffix_refl _, 0, Nat.le_refl 0, needs⟩
  | succ depth ih =>
    obtain ⟨tasks, next, t, member, needsLess⟩ := needs.next
    have leads := leads_of_next next member
    obtain ⟨chain, long, different, each⟩ := ih needsLess (onWay.leads leads)
    refine ⟨task :: chain, by rw [List.length_cons, long], List.nodup_cons.mpr ⟨fun again => ?_, different⟩, ?_⟩
    · -- The same key would be the same task, which cannot need fewer levels than it needs.
      obtain ⟨other, inside, same⟩ := List.mem_map.mp again
      obtain ⟨_, longer, levels, less, needsOther⟩ := each other inside
      obtain ⟨sameLength, sameRegex⟩ := Prod.mk.inj same
      have sameActive := (leads.suffix.trans longer).eq_of_length sameLength.symm
      have sameTask : other = task := by
        cases other
        cases task
        simp_all
      exact needs.not_lt (sameTask ▸ needsOther) (Nat.lt_succ_of_le less)
    · refine List.forall_mem_cons.mpr ⟨⟨onWay, List.suffix_refl _, depth + 1, Nat.le_refl _, needs⟩, ?_⟩
      intro other inside
      obtain ⟨fine, longer, levels, less, needsOther⟩ := each other inside
      exact ⟨fine, leads.suffix.trans longer, levels, Nat.le_succ_of_le less, needsOther⟩

theorem Needs.lt_depthBound {r : Regex} (needs : Needs defs depth ⟨[], r⟩) : depth < depthBound defs r := by
  obtain ⟨chain, long, different, each⟩ := needs.chain onWay_start
  have inside : chain.map Task.key ⊆ List.range (defs.length + 1) ×ˢ met defs r :=
    List.forall_mem_map.mpr fun t member => (each t member).1.key
  have few := (different.subperm inside).length_le
  rwa [List.length_map, long, List.length_product, List.length_range, length_met] at few

/-- If any bound is enough then so is the one that is used. -/
theorem Enough.depthBound {r : Regex} (enough : Enough defs depth ⟨[], r⟩) :
    Enough defs (depthBound defs r) ⟨[], r⟩ := by
  obtain ⟨fewer, _, needs⟩ := enough.needs
  exact needs.enough.mono needs.lt_depthBound

end TokenTables.Automaton
