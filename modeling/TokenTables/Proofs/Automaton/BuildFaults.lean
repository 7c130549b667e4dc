import TokenTables.Grammar.Check.Regexes
import TokenTables.Proofs.Automaton.Expression

/-!
What building comes to. Whether a builder comes through, and the fault that it stops at if it does not, are the same in
every graph: a dry run over the expressions that are built on the way finds them.
-/

namespace TokenTables.Automaton

/-! ### The dry run -/

/-- What is wrong with the characters of an alternative that reads one. -/
def charsFault? (r : Regex) : Option RegexFault :=
  (singleChars? r).bind fun cls => cls.items.findSome? (·.fault? r.location)

/-- The alternatives of a list that do not read just one character. -/
abbrev longer (alternatives : List Regex) : List Regex := alternatives.filter fun r => (singleChars? r).isNone

/-- An expression to build, inside the expansion of some labels. -/
structure Task where
  active : List String
  regex : Regex

/-- The expressions that are built on the way to an expression, in order, unless something is wrong at its top. -/
def nextTasks (defs : Definitions) (task : Task) : Except RegexFault (List Task) :=
  match task.regex with
  | .literal loc written => match outOfRange? loc written.toList with
    | some fault => .error fault
    | none => .ok []
  | .charClass loc cls => match cls.items.findSome? (·.fault? loc) with
    | some fault => .error fault
    | none => .ok []
  | .sequence _ parts => .ok (parts.map (⟨task.active, ·⟩))
  | .choice _ alternatives => match spliceChoices defs task.active [] alternatives with
    | .error fault => .error fault
    | .ok all => match all.findSome? charsFault? with
      | some fault => .error fault
      | none => .ok ((longer all).map (⟨task.active, ·⟩))
  -- A body that is never to be matched is not built, so nothing in it is found wrong.
  | .repetition loc body least most =>
    if most.any (· < least) then .error (.wrongBounds least (most.getD 0) loc)
    else .ok (if most = some 0 then [] else [⟨task.active, body⟩])
  | .reference loc label => match defs.lookup label with
    | none => .error (.unknownReference label loc)
    | some r => if task.active.contains label then .error (.circularReference label loc)
      else .ok [⟨label :: task.active, r⟩]

/-- The fault that building stops at, if there is one. -/
def fault? (defs : Definitions) : (depth : Nat) → Task → Option RegexFault
  | 0, task => some (.endlessExpansion task.regex.location)
  | depth + 1, task => match nextTasks defs task with
    | .error fault => some fault
    | .ok tasks => tasks.findSome? (fault? defs depth)

section

variable {defs : Definitions} {depth : Nat} {active : List String} {loc : Location} {task : Task} {tasks : List Task}

theorem fault?_error {fault : RegexFault} (wrong : nextTasks defs task = .error fault) :
    fault? defs (depth + 1) task = some fault := by
  rw [fault?, wrong]

theorem fault?_ok (next : nextTasks defs task = .ok tasks) :
    fault? defs (depth + 1) task = tasks.findSome? (fault? defs depth) := by
  rw [fault?, next]

theorem nextTasks_choice {alternatives all : List Regex} (spliced : spliceChoices defs active [] alternatives = .ok all)
    (fine : all.findSome? charsFault? = none) :
    nextTasks defs ⟨active, .choice loc alternatives⟩ = .ok ((longer all).map (⟨active, ·⟩)) := by
  simp only [nextTasks, spliced, fine]

theorem nextTasks_reference {label : String} {r : Regex} (found : defs.lookup label = some r)
    (fresh : ¬ active.contains label = true) :
    nextTasks defs ⟨active, .reference loc label⟩ = .ok [⟨label :: active, r⟩] := by
  simp only [nextTasks, found, if_neg fresh]

/-- How the dry run goes on where nothing is wrong at the top. -/
inductive Steps (defs : Definitions) : Task → List Task → Prop where
  | literal {active : List String} {loc : Location} {written : String} : Steps defs ⟨active, .literal loc written⟩ []
  | charClass {active : List String} {loc : Location} {cls : CharClass} : Steps defs ⟨active, .charClass loc cls⟩ []
  | sequence {active : List String} {loc : Location} {parts : List Regex} :
    Steps defs ⟨active, .sequence loc parts⟩ (parts.map (⟨active, ·⟩))
  | choice {active : List String} {loc : Location} {alternatives all : List Regex}
    (spliced : SplicesTo defs alternatives all) :
    Steps defs ⟨active, .choice loc alternatives⟩ ((longer all).map (⟨active, ·⟩))
  | repetition {active : List String} {loc : Location} {body : Regex} {least : Nat} {most : Option Nat} :
    Steps defs ⟨active, .repetition loc body least most⟩ (if most = some 0 then [] else [⟨active, body⟩])
  | reference {active : List String} {loc : Location} {label : String} {r : Regex}
    (found : defs.lookup label = some r) (fresh : label ∉ active) :
    Steps defs ⟨active, .reference loc label⟩ [⟨label :: active, r⟩]

theorem steps_of_ok (next : nextTasks defs task = .ok tasks) : Steps defs task tasks := by
  obtain ⟨active, r⟩ := task
  unfold nextTasks at next
  cases r with
  | literal loc written =>
    dsimp only at next
    split at next <;> cases next
    exact .literal
  | charClass loc cls =>
    dsimp only at next
    split at next <;> cases next
    exact .charClass
  | sequence loc parts =>
    cases next
    exact .sequence
  | choice loc alternatives =>
    dsimp only at next
    split at next
    · cases next
    · rename_i all spliced
      split at next <;> cases next
      exact .choice (splicesTo_of_ok spliced)
  | repetition loc body least most =>
    dsimp only at next
    split at next <;> cases next
    exact .repetition
  | reference loc label =>
    dsimp only at next
    split at next
    · cases next
    · rename_i found
      split at next <;> cases next
      rename_i fresh
      exact .reference found (by simpa using fresh)

end

namespace Build

open Text (CodeRange)

variable {α β : Type} {settings : BuildSettings} {fault : Option RegexFault}

/-- From every graph, the builder comes through with such a result or stops at the fault. -/
def ComesTo (p : Build α) (fault : Option RegexFault) (P : α → Prop) : Prop :=
  ∀ c, (fault = none ∧ ∃ a c', p c = .ok a c' ∧ P a) ∨ ∃ f c', fault = some f ∧ p c = .error f c'

/-- The same if nothing is said about the result. -/
abbrev Stops (p : Build α) (fault : Option RegexFault) : Prop := ComesTo p fault fun _ => True

/-- From every graph the builder comes through. -/
abbrev Succeeds (p : Build α) : Prop := Stops p none

theorem ComesTo.bind {p : Build α} {f : α → Build β} {fault later : Option RegexFault} {P : α → Prop} {Q : β → Prop}
    (first : ComesTo p fault P) (rest : ∀ a, P a → ComesTo (f a) later Q) : ComesTo (p >>= f) (fault.or later) Q := by
  intro c
  show (_ ∧ ∃ b c', EStateM.bind p f c = .ok b c' ∧ _) ∨ ∃ e c', _ ∧ EStateM.bind p f c = .error e c'
  unfold EStateM.bind
  rcases first c with ⟨rfl, a, between, ran, holds⟩ | ⟨e, between, rfl, ran⟩
  · rw [ran]
    exact rest a holds between
  · rw [ran]
    exact .inr ⟨e, between, rfl, rfl⟩

theorem ComesTo.of_eq {p : Build α} {later : Option RegexFault} {P : α → Prop} (comes : ComesTo p fault P)
    (same : fault = later) : ComesTo p later P := same ▸ comes

theorem comesTo_pure {a : α} {P : α → Prop} (holds : P a) : ComesTo (pure a) none P :=
  fun c => .inl ⟨rfl, a, c, rfl, holds⟩

theorem comesTo_throw {f : RegexFault} {P : α → Prop} : ComesTo (throw f) (some f) P :=
  fun c => .inr ⟨f, c, rfl, rfl⟩

theorem stops_throw_bind {f : RegexFault} {rest : α → Build β} : Stops (throw f >>= rest) (some f) :=
  fun c => .inr ⟨f, c, rfl, rfl⟩

theorem ComesTo.mono {p : Build α} {P Q : α → Prop} (comes : ComesTo p fault P) (weaker : ∀ a, P a → Q a) :
    ComesTo p fault Q := fun c => (comes c).imp_left fun ⟨fine, a, c', run, holds⟩ => ⟨fine, a, c', run, weaker a holds⟩

theorem ComesTo.thenPure {p : Build α} {a : α → β} {P : α → Prop} {Q : β → Prop} (first : ComesTo p fault P)
    (holds : ∀ b, P b → Q (a b)) : ComesTo (do return a (← p)) fault Q := by
  exact (first.bind fun b before => comesTo_pure (holds b before)).of_eq Option.or_none

theorem ComesTo.thenSucceeds {p : Build α} {f : α → Build β} {P : α → Prop} (first : ComesTo p fault P)
    (rest : ∀ a, P a → Succeeds (f a)) : Stops (p >>= f) fault := by
  exact (first.bind rest).of_eq Option.or_none

theorem succeeds_addState : Succeeds addState := fun _ => .inl ⟨rfl, _, _, rfl, trivial⟩

theorem succeeds_linkEpsilon {source target : StateId} : Succeeds (linkEpsilon source target) :=
  fun _ => .inl ⟨rfl, _, _, rfl, trivial⟩

theorem succeeds_addMoves {source target : StateId} {more : Moves → Moves} :
    Succeeds (addMoves source target more) := fun _ => .inl ⟨rfl, _, _, rfl, trivial⟩

theorem findSome?_or {γ δ : Type} {f : γ → Option δ} {x : γ} {xs : List γ} :
    (x :: xs).findSome? f = (f x).or (xs.findSome? f) := by
  rw [List.findSome?_cons]
  cases f x <;> rfl

theorem stops_foldlM {f : β → α → Build β} {faultOf : α → Option RegexFault} {xs : List α} {b : β}
    (each : ∀ b, ∀ a ∈ xs, Stops (f b a) (faultOf a)) : Stops (xs.foldlM f b) (xs.findSome? faultOf) := by
  induction xs generalizing b with
  | nil => exact comesTo_pure trivial
  | cons a rest ih =>
    rw [List.foldlM_cons, findSome?_or]
    exact (each b a List.mem_cons_self).bind fun between _ =>
      ih fun b a member => each b a (List.mem_cons_of_mem _ member)

theorem succeeds_foldlM {f : β → α → Build β} {xs : List α} {b : β} (each : ∀ b, ∀ a ∈ xs, Succeeds (f b a)) :
    Succeeds (xs.foldlM f b) := by
  have all : Stops (xs.foldlM f b) (xs.findSome? fun _ => none) := stops_foldlM each
  rwa [List.findSome?_eq_none_iff.mpr fun _ _ => rfl] at all

theorem stops_forM {f : α → Build Unit} {faultOf : α → Option RegexFault} {xs : List α}
    (each : ∀ a ∈ xs, Stops (f a) (faultOf a)) : Stops (xs.forM f) (xs.findSome? faultOf) := by
  induction xs with
  | nil => exact comesTo_pure trivial
  | cons a rest ih =>
    rw [findSome?_or]
    exact (each a List.mem_cons_self).bind fun _ _ => ih fun b member => each b (List.mem_cons_of_mem _ member)

/-! ### Checks -/

theorem outOfRange?_eq_findSome? {loc : Location} {chars : List Char} :
    outOfRange? loc chars = chars.findSome? fun c => outOfRange? loc [c] := by
  induction chars with
  | nil => rfl
  | cons c rest ih =>
    rw [findSome?_or, ← ih]
    unfold outOfRange?
    simp only [List.find?_cons, List.find?_nil]
    split <;> rfl

theorem stops_admitChar {loc : Location} {c : Char} : Stops (admitChar settings loc c) (outOfRange? loc [c]) := by
  unfold admitChar outOfRange?
  split
  · rename_i beyond
    simpa [beyond] using comesTo_throw
  · rename_i small
    have fine : ([c].find? fun c => decide (Text.lastCode < c.toNat)) = none := by simpa using small
    rw [fine]
    split
    · exact fun _ => .inl ⟨rfl, _, _, rfl, trivial⟩
    · exact comesTo_pure trivial

theorem stops_admitItem {loc : Location} {item : ClassPart} :
    Stops (admitItem settings loc item) (item.fault? loc) := by
  unfold admitItem ClassPart.fault?
  split
  · exact stops_throw_bind
  · exact stops_admitChar

theorem stops_admittedRanges {loc : Location} {cls : CharClass} :
    Stops (admittedRanges settings loc cls) (cls.items.findSome? (·.fault? loc)) :=
  (stops_forM fun _ _ => stops_admitItem).thenPure fun _ _ => trivial

/-- The alternatives that are built one by one. -/
def others (parts : List ChoicePart) : List Regex :=
  parts.filterMap fun part => match part with
    | .chars => none
    | .other r => some r

theorem comesTo_gatherOne {gathered : List ChoicePart × Option (List CodeRange)} {r : Regex} :
    ComesTo (gatherOne settings gathered r) (charsFault? r) fun after =>
      others after.1 = others gathered.1 ++ longer [r] := by
  unfold gatherOne charsFault?
  cases single : singleChars? r with
  | none => exact comesTo_pure (by simp [others, single])
  | some cls =>
    have checked := @stops_admittedRanges settings r.location cls
    cases gathered.2 with
    | none => exact checked.thenPure fun _ _ => by simp [others, single]
    | some ranges => exact checked.thenPure fun _ _ => by simp [single]

theorem comesTo_gatherAll {gathered : List ChoicePart × Option (List CodeRange)} {rest : List Regex} :
    ComesTo (rest.foldlM (gatherOne settings) gathered) (rest.findSome? charsFault?) fun after =>
      others after.1 = others gathered.1 ++ longer rest := by
  induction rest generalizing gathered with
  | nil => exact comesTo_pure (by simp)
  | cons r rest ih =>
    rw [List.foldlM_cons, findSome?_or]
    refine comesTo_gatherOne.bind fun between first => ih.mono fun after later => ?_
    rw [later, first, List.append_assoc, ← List.filter_append]
    rfl

theorem comesTo_gatherChars {alternatives : List Regex} :
    ComesTo (gatherChars settings alternatives) (alternatives.findSome? charsFault?) fun gathered =>
      others gathered.1 = longer alternatives := by
  rw [gatherChars_eq]
  exact (@comesTo_gatherAll settings ([], none) alternatives).thenPure fun gathered all => by simpa [others] using all

/-! ### Fragments -/

theorem succeeds_nothing : Succeeds nothing := succeeds_addState.thenPure fun _ _ => trivial

theorem stops_text {loc : Location} {chars : List Char} : Stops (text settings loc chars) (outOfRange? loc chars) := by
  rw [outOfRange?_eq_findSome?]
  refine (stops_forM fun _ _ => stops_admitChar).thenSucceeds fun _ _ => succeeds_addState.bind fun start _ => ?_
  refine (succeeds_foldlM fun current c _ => ?_).bind fun _ _ => comesTo_pure trivial
  exact succeeds_addState.bind fun _ _ => succeeds_addMoves.bind fun _ _ => comesTo_pure trivial

theorem succeeds_oneChar {ranges : List CodeRange} : Succeeds (oneChar ranges) :=
  succeeds_addState.bind fun _ _ => succeeds_addState.bind fun _ _ => succeeds_addMoves.bind fun _ _ =>
    comesTo_pure trivial

theorem succeeds_join {before : Option Fragment} {next : Fragment} : Succeeds (join before next) := by
  cases before with
  | none => exact comesTo_pure trivial
  | some f => exact succeeds_linkEpsilon.bind fun _ _ => comesTo_pure trivial

theorem succeeds_orNothing {f : Option Fragment} : Succeeds (orNothing f) := by
  cases f with
  | none => exact succeeds_nothing
  | some f => exact comesTo_pure trivial

theorem stops_inTurn {xs : List α} {build : α → Build Fragment} {faultOf : α → Option RegexFault}
    (each : ∀ x ∈ xs, Stops (build x) (faultOf x)) : Stops (inTurn (xs.map build)) (xs.findSome? faultOf) := by
  have row := stops_foldlM (f := fun before x => do join before (← build x)) (b := none) fun before x member =>
    (each x member).thenSucceeds fun _ _ => succeeds_join
  unfold inTurn
  rw [List.foldlM_map]
  exact row.thenSucceeds fun f _ => succeeds_orNothing

theorem stops_copies {part : Build Fragment} (made : Stops part fault) {count : Nat} {before : Option Fragment} :
    Stops (copies part count before) (if count = 0 then none else fault) := by
  induction count generalizing before with
  | zero => exact comesTo_pure trivial
  | succ count ih =>
    have both := made.bind fun f _ => (@succeeds_join before f).bind fun joined _ => @ih joined
    have same : fault.or (Option.or none (if count = 0 then none else fault)) = fault := by cases fault <;> simp
    rw [same] at both
    exact both

theorem stops_branch {part : Build Fragment} {start stop : StateId} (made : Stops part fault) :
    Stops (branch start stop part) fault :=
  made.thenSucceeds fun _ _ => succeeds_linkEpsilon.bind fun _ _ => succeeds_linkEpsilon

theorem stops_fork {xs : List α} {build : α → Build Fragment} {faultOf : α → Option RegexFault}
    (each : ∀ x ∈ xs, Stops (build x) (faultOf x)) : Stops (fork (xs.map build)) (xs.findSome? faultOf) := by
  refine succeeds_addState.bind fun start _ => succeeds_addState.bind fun stop _ => ?_
  have row := stops_forM (f := fun x => branch start stop (build x)) fun x member => stops_branch (each x member)
  have same : (xs.map build).forM (branch start stop) = xs.forM fun x => branch start stop (build x) := by
    clear each row
    induction xs with
    | nil => rfl
    | cons x rest ih => exact congrArg (branch start stop (build x) >>= fun _ => ·) ih
  rw [same]
  exact row.thenPure fun _ _ => trivial

theorem stops_oneOf {xs : List α} {build : α → Build Fragment} {faultOf : α → Option RegexFault}
    (each : ∀ x ∈ xs, Stops (build x) (faultOf x)) : Stops (oneOf (xs.map build)) (xs.findSome? faultOf) := by
  match xs with
  | [] => exact stops_fork each
  | [x] =>
    rw [findSome?_or]
    exact (each x List.mem_cons_self).of_eq Option.or_none.symm
  | x :: y :: rest => exact stops_fork each

theorem stops_around {skippable repeatable : Bool} {body : Build Fragment} (made : Stops body fault) :
    Stops (around skippable repeatable body) fault := by
  refine succeeds_addState.bind fun start _ => succeeds_addState.bind fun stop _ => made.thenSucceeds fun f _ => ?_
  refine succeeds_linkEpsilon.bind fun _ _ => ?_
  have finish : Succeeds (do
      linkEpsilon f.stop stop
      if repeatable then linkEpsilon f.stop f.start
      return (⟨start, stop⟩ : Fragment)) := by
    refine succeeds_linkEpsilon.bind fun _ _ => ?_
    cases repeatable with
    | true => exact succeeds_linkEpsilon.bind fun _ _ => comesTo_pure trivial
    | false => exact comesTo_pure trivial
  cases skippable with
  | true => exact succeeds_linkEpsilon.bind fun _ _ => finish
  | false => exact finish

theorem stops_atLeast {body : Build Fragment} (made : Stops body fault) (least : Nat) :
    Stops (do orNothing (← join (← copies body least none) (← zeroOrMore body))) fault := by
  have same : (if least = 0 then none else fault).or fault = fault := by
    split <;> cases fault <;> rfl
  refine ComesTo.of_eq ((stops_copies made).bind fun before _ => ?_) same
  exact (stops_around made).thenSucceeds fun f _ => succeeds_join.bind fun _ _ => succeeds_orNothing

theorem stops_between {body : Build Fragment} (made : Stops body fault) {least most : Nat} (ordered : least ≤ most) :
    Stops (do orNothing (← copies (zeroOrOne body) (most - least) (← copies body least none)))
      (if most = 0 then none else fault) := by
  -- The body is built for the first time in whichever of the two makes a copy.
  have same : (if least = 0 then none else fault).or (if most - least = 0 then none else fault) =
      if most = 0 then none else fault := by
    cases fault with
    | none => simp
    | some f =>
      by_cases first : least = 0
      · simp [first]
      · simp [first, Nat.ne_of_gt (Nat.lt_of_lt_of_le (Nat.pos_of_ne_zero first) ordered)]
  refine ComesTo.of_eq ((stops_copies made).bind fun before _ => ?_) same
  exact (stops_copies (stops_around made)).thenSucceeds fun _ _ => succeeds_orNothing

theorem stops_repeated {body : Build Fragment} (made : Stops body fault) {least : Nat} {most : Option Nat}
    (ordered : ¬ most.any (· < least) = true) :
    Stops (repeated body least most) (if most = some 0 then none else fault) := by
  unfold repeated
  split
  · exact stops_around made
  · exact stops_around made
  · exact stops_around made
  · exact stops_atLeast made _
  · have between := stops_between made (Nat.le_of_not_lt (by simpa using ordered))
    simpa using between

theorem findSome?_others {γ : Type} {parts : List ChoicePart} {f : Regex → Option γ} :
    (others parts).findSome? f = parts.findSome? fun
      | .chars => none
      | .other r => f r := by
  induction parts with
  | nil => rfl
  | cons part rest ih =>
    cases part with
    | chars => exact ih
    | other r =>
      rw [findSome?_or, ← ih]
      exact findSome?_or

theorem stops_gathered {parts : List ChoicePart} {all : List Regex} (ranges : List CodeRange)
    {build : Regex → Build Fragment} {faultOf : Regex → Option RegexFault} (same : others parts = longer all)
    (each : ∀ r, Stops (build r) (faultOf r)) :
    Stops (oneOf (parts.map fun
      | .chars => oneChar ranges
      | .other r => build r)) ((longer all).findSome? faultOf) := by
  rw [← same, findSome?_others]
  refine stops_oneOf fun part _ => ?_
  cases part with
  | chars => exact succeeds_oneChar
  | other r => exact each r

/-! ### Expressions -/

/-- The dry run comes to what building comes to. -/
theorem stops_expression (depth : Nat) (active : List String) (r : Regex) :
    Stops (expression settings depth active r) (fault? settings.definitions depth ⟨active, r⟩) := by
  induction depth generalizing active r with
  | zero => exact comesTo_throw
  | succ depth ih =>
    unfold fault? nextTasks
    cases r with
    | literal loc written =>
      refine ComesTo.of_eq stops_text ?_
      dsimp only
      cases outOfRange? loc written.toList <;> rfl
    | charClass loc cls =>
      refine ComesTo.of_eq (stops_admittedRanges.thenSucceeds fun _ _ => succeeds_oneChar) ?_
      dsimp only
      cases cls.items.findSome? (·.fault? loc) <;> rfl
    | sequence loc parts =>
      have all : Stops (inTurn (parts.map (expression settings depth active))) _ := stops_inTurn fun r _ => ih active r
      dsimp only
      rw [List.findSome?_map]
      exact all
    | choice loc alternatives =>
      unfold expression
      dsimp only
      cases spliceChoices settings.definitions active [] alternatives with
      | error f => exact stops_throw_bind
      | ok all =>
        -- All single characters are checked first, wherever they stand among the alternatives.
        have built := (@comesTo_gatherChars settings all).bind fun gathered same =>
          stops_gathered gathered.2 same fun r => ih active r
        dsimp only
        rw [pure_bind]
        refine built.of_eq ?_
        cases all.findSome? charsFault? with
        | some f => rfl
        | none => exact List.findSome?_map.symm
    | repetition loc body least most =>
      unfold expression
      dsimp only
      split
      · exact stops_throw_bind
      · rename_i ordered
        refine ComesTo.of_eq (stops_repeated (ih active body) ordered) ?_
        split
        · rfl
        · simp
    | reference loc label =>
      unfold expression
      dsimp only
      cases settings.definitions.lookup label with
      | none => exact comesTo_throw
      | some body =>
        dsimp only
        split
        · exact comesTo_throw
        · exact (ih _ body).of_eq (by simp)

end Build

/-- A graph is given the fragment of an expression unless the dry run finds a fault. -/
theorem Graph.build_stops (g : Graph) (settings : BuildSettings) (r : Regex) :
    let fault := fault? settings.definitions (depthBound settings.definitions r) ⟨[], r⟩
    (fault = none ∧ ∃ f, (g.build settings r).outcome = .ok f) ∨
      ∃ f, fault = some f ∧ (g.build settings r).outcome = .error f := by
  have run := @Build.stops_expression settings (depthBound settings.definitions r) [] r { graph := g }
  unfold build EStateM.run
  rcases run with ⟨fine, f, after, run, _⟩ | ⟨f, after, stopped, run⟩
  · exact .inl ⟨fine, f, by rw [run]⟩
  · exact .inr ⟨f, stopped, by rw [run]⟩

end TokenTables.Automaton
