import Mathlib
import TokenTables.Proofs.Tokenizer.Export

/-!
Names as numbers. The names of a graph count the first states that carry them, and sets of names are numbered after
these: asked for again, a set gets the name it has got before, and another set gets another one. So the table has one
entry for each name, which says what the name stands for, and naming a graph once more comes to the same.
-/

namespace TokenTables.Automaton.Graph

variable {base g h : Graph} {sem : Standing} {name : Option EntryName} {members : List EntryName}

/-! ### Names of sets -/

/-- The groups are numbered in order. They list several names each, ascending, and no two of them list the same. -/
structure GroupsApart (g : Graph) : Prop where
  order : GroupsInOrder g
  several : ∀ (i : Nat) (c : NameGroup), g.groups[i]? = some c → Ascending c.members ∧ 2 ≤ c.members.length
  distinct : ∀ (i j : Nat) (c d : NameGroup), g.groups[i]? = some c → g.groups[j]? = some d → c.members = d.members → i = j

theorem groupsApart_of_none (none : g.groups = #[]) : GroupsApart g := by
  refine ⟨fun i c known => ?_, fun i c known => ?_, fun i j c d known => ?_⟩
  all_goals
    rw [none] at known
    cases known

theorem StandsFor.more (more : MoreGroups g h) (stands : g.StandsFor name members) : h.StandsFor name members := by
  have count : h.nameCount = g.nameCount := congrArg Array.size more.named
  cases name with
  | none => exact stands
  | some n =>
    rcases stands with ⟨single, inside⟩ | ⟨i, place, number⟩
    · exact .inl ⟨single, by rwa [count]⟩
    · exact .inr ⟨i, more.groups i _ place, by rwa [count]⟩

theorem GroupsApart.push (apart : GroupsApart g) (ascends : Ascending members) (several : 2 ≤ members.length)
    (inside : ∀ n ∈ members, n < g.nameCount) (new : ∀ c ∈ g.groups, c.members ≠ members) :
    GroupsApart { g with groups := g.groups.push ⟨members, g.nameCount + g.groups.size⟩ } := by
  have cases : ∀ {i : Nat} {c : NameGroup},
      (g.groups.push ⟨members, g.nameCount + g.groups.size⟩)[i]? = some c →
      g.groups[i]? = some c ∨ i = g.groups.size ∧ c = ⟨members, g.nameCount + g.groups.size⟩ := by
    intro i c known
    rw [Array.getElem?_push] at known
    split at known
    · rename_i last
      exact .inr ⟨last, (Option.some.inj known).symm⟩
    · exact .inl known
  refine ⟨fun i c known => ?_, fun i c known => ?_, fun i j c d knownC knownD same => ?_⟩
  · rcases cases known with old | ⟨rfl, rfl⟩
    · exact apart.order i c old
    · exact ⟨rfl, inside⟩
  · rcases cases known with old | ⟨rfl, rfl⟩
    · exact apart.several i c old
    · exact ⟨ascends, several⟩
  · rcases cases knownC with oldC | ⟨rfl, rfl⟩ <;> rcases cases knownD with oldD | ⟨rfl, rfl⟩
    · exact apart.distinct i j c d oldC oldD same
    · exact absurd same (new c (Array.mem_of_getElem? oldC))
    · exact absurd same.symm (new d (Array.mem_of_getElem? oldD))
    · rfl

theorem GroupsApart.nameOfGroup (apart : GroupsApart g) {names : List EntryName} (inside : ∀ n ∈ names, n < g.nameCount) :
    GroupsApart (g.nameOfGroup names).1 := by
  unfold Graph.nameOfGroup
  split
  · exact apart
  · exact apart
  · rename_i notEmpty notSingle
    split
    · exact apart
    · rename_i missing
      refine apart.push (ascending_ascending names) ?_ (fun n member => inside n (mem_ascending.mp member)) ?_
      · match list : ascending names with
        | [] => exact absurd list notEmpty
        | [single] => exact absurd list (notSingle single)
        | _ :: _ :: _ => simp
      · intro c member same
        have differs := Array.find?_eq_none.mp missing c member
        simp [same] at differs

/-- The names of groups begin after those of single states, so a name stands for one set only. -/
theorem StandsFor.unique {n : EntryName} {others : List EntryName}
    (stands : g.StandsFor (some n) members) (standsOther : g.StandsFor (some n) others) : members = others := by
  have beyond : ∀ {i : Nat}, n = g.nameCount + i → ¬n < g.nameCount := by
    rintro i rfl
    exact Nat.not_lt.mpr (Nat.le_add_right _ _)
  rcases stands with ⟨single, inside⟩ | ⟨i, place, number⟩
  · rcases standsOther with ⟨same, _⟩ | ⟨j, _, number⟩
    · exact single.trans same.symm
    · exact absurd inside (beyond number)
  · rcases standsOther with ⟨_, inside⟩ | ⟨j, placeOther, numberOther⟩
    · exact absurd inside (beyond number)
    · obtain rfl : i = j := Nat.add_left_cancel (number.symm.trans numberOther)
      exact congrArg NameGroup.members (Option.some.inj (place.symm.trans placeOther))

/-- Asked for again, a set gets the name it has, and nothing changes. -/
theorem GroupsApart.again (apart : GroupsApart g) {names : List EntryName} (stands : g.StandsFor name (ascending names)) :
    g.nameOfGroup names = (g, name) := by
  unfold Graph.nameOfGroup
  cases name with
  | none =>
    have empty : ascending names = [] := stands
    rw [empty]
  | some n =>
    rcases stands with ⟨single, _⟩ | ⟨i, place, _⟩
    · rw [single]
    · have several : 2 ≤ (ascending names).length := (apart.several i _ place).2
      split
      · rename_i empty
        simp [empty] at several
      · rename_i single
        simp [single] at several
      · split
        · rename_i group found
          have equal : group.members = ascending names := by simpa using Array.find?_some found
          obtain ⟨j, placeFound⟩ := Array.getElem?_of_mem (Array.mem_of_find?_eq_some found)
          obtain rfl := apart.distinct j i _ _ placeFound place equal
          obtain rfl := Option.some.inj (placeFound.symm.trans place)
          rfl
        · rename_i missing
          have differs := Array.find?_eq_none.mp missing _ (Array.mem_of_getElem? place)
          simp at differs

/-- Asks for the names of several sets, one after the other. -/
def nameGroups (g : Graph) : List (List EntryName) → Graph × List (Option EntryName)
  | [] => (g, [])
  | names :: rest =>
    let (g, name) := g.nameOfGroup names
    let (g, others) := nameGroups g rest
    (g, name :: others)

/-- However many sets are asked for, every answer stands for its set in the end. -/
theorem GroupsApart.nameGroups (apart : GroupsApart g) {sets : List (List EntryName)}
    (real : ∀ names ∈ sets, ∀ n ∈ names, n < g.nameCount) :
    MoreGroups g (g.nameGroups sets).1 ∧ GroupsApart (g.nameGroups sets).1 ∧
      ∀ (i : Nat) (names : List EntryName), sets[i]? = some names → ∃ answer,
        (g.nameGroups sets).2[i]? = some answer ∧ (g.nameGroups sets).1.StandsFor answer (ascending names) := by
  induction sets generalizing g with
  | nil => exact ⟨.refl g, apart, fun i names place => nomatch place⟩
  | cons first rest ih =>
    have inside := real first List.mem_cons_self
    obtain ⟨more, _, stands⟩ := nameOfGroup_ok apart.order inside
    have count : (g.nameOfGroup first).1.nameCount = g.nameCount := congrArg Array.size more.named
    obtain ⟨later, apartLast, answers⟩ := ih (apart.nameOfGroup inside) fun names member => by
      rw [count]
      exact real names (List.mem_cons_of_mem _ member)
    refine ⟨more.trans later, apartLast, fun i names place => ?_⟩
    cases i with
    | zero =>
      obtain rfl := Option.some.inj place
      exact ⟨_, rfl, stands.more later⟩
    | succ i => exact answers i names place

/-! ### Naming again -/

theorem nameFrom_named {id : Nat} (known : (g.state id).name.isSome = true) : g.nameFrom id = g := by
  unfold Graph.nameFrom nameChain unnamedChain
  rw [if_pos known]
  rfl

theorem nameFrom_idle {id : Nat} (halts : (g.state id).next = none) (idle : (g.state id).moves = {}) :
    g.nameFrom id = g := by
  have reports : g.reportNext id = g := by
    unfold reportNext
    rw [halts]
  have noMoves : (g.state id).hasMoves = false := by
    unfold State.hasMoves
    rw [idle, isEmpty_empty]
    rfl
  by_cases known : (g.state id).name.isSome = true
  · exact nameFrom_named known
  · unfold Graph.nameFrom nameChain unnamedChain
    rw [if_neg known, halts]
    dsimp only [List.foldl_cons, List.foldl_nil]
    unfold settle
    simp only [reports, noMoves, Bool.not_false, Bool.or_true, if_true]

theorem foldl_nameFrom_named {ids : List Nat} (known : ∀ q ∈ ids, (g.state q).name.isSome = true) :
    ids.foldl Graph.nameFrom g = g := by
  induction ids with
  | nil => rfl
  | cons q rest ih =>
    rw [List.foldl_cons, nameFrom_named (known q List.mem_cons_self)]
    exact ih fun r member => known r (List.mem_cons_of_mem _ member)

theorem nameAll_groupsApart (nameable : Nameable base) : GroupsApart base.nameAll.1 := by
  rcases nameAll_cases nameable with ⟨_, result⟩ | ⟨initial, g, _, _, _, naming, _, _, result⟩
  · rw [result]
    exact groupsApart_of_none nameable.noNames.2
  · rw [result]
    exact (groupsApart_of_none naming.groups).nameOfGroup naming.namesOf_lt

theorem namesBehind_listed {id : Nat} {names : List EntryName} (listed : (g.state id).namesBehind = some names) :
    g.namesBehind id = (g, names) := by
  unfold Graph.namesBehind collectNames
  rw [listed]

/-- A named graph stays as it is when it is named again, also if more sets have been named since. -/
theorem nameAll_again (nameable : Nameable base)
    (still : ∀ s : Nat, base.initial = some s → (base.state s).next = none ∧ (base.state s).moves = {})
    (more : MoreGroups base.nameAll.1 h) (apart : GroupsApart h) : h.nameAll = (h, base.nameAll.2) := by
  rcases nameAll_cases nameable with ⟨nothing, result⟩ | ⟨initial, g, start, opening, some, naming, named, listed, result⟩
  · rw [result] at more ⊢
    have noNames : h.nameCount = 0 := by
      unfold nameCount
      rw [more.named, nameable.noNames.1]
      rfl
    unfold nameAll
    cases start : h.initial with
    | none => rfl
    | some initial =>
      have bare : (h.state initial).epsilon = [] := by
        rw [more.state]
        unfold openingStates at nothing
        rwa [← more.initial, start] at nothing
      dsimp only
      rw [bare, List.foldl_nil, if_pos noNames]
  · obtain ⟨grew, _, stands⟩ := nameOfGroup_ok (groupsApart_of_none naming.groups).order naming.namesOf_lt
    rw [result] at more ⊢
    have all : MoreGroups g h := grew.trans more
    have epsilon : (h.state initial).epsilon = base.openingStates := by
      rw [all.state, naming.same.epsilon, opening]
    have counts : h.nameCount ≠ 0 := by
      obtain ⟨q, member⟩ := List.exists_mem_of_ne_nil _ some
      obtain ⟨n, known⟩ := Option.isSome_iff_exists.mp (named q member)
      have low : n < h.nameCount := by
        unfold nameCount
        rw [all.named]
        exact naming.name_lt known
      exact Nat.ne_of_gt (Nat.zero_lt_of_lt low)
    have opened : (h.state initial).epsilon.foldl Graph.nameFrom h = h := by
      refine foldl_nameFrom_named fun q member => ?_
      rw [epsilon] at member
      rw [all.state]
      exact named q member
    have stays : h.nameFrom initial = h := by
      refine nameFrom_idle ?_ ?_
      · rw [all.state, naming.same.next]
        exact (still initial start).1
      · rw [all.state, naming.same.moves]
        exact (still initial start).2
    have collected : h.namesBehind initial = (h, g.namesOf initial) :=
      namesBehind_listed (by rw [all.state, listed])
    have begins : h.initial = Option.some initial := all.initial.trans (naming.same.initial.trans start)
    unfold nameAll
    rw [begins]
    dsimp only
    rw [opened, if_neg counts, stays, collected]
    exact apart.again (stands.more more)

/-! ### What can be entered -/

/-- A state can be entered: it is active in the beginning, or it comes after a state that can be entered, on a character
or by an epsilon move. -/
inductive Entered (g : Graph) : Nat → Prop where
  | opening {s : Nat} (member : s ∈ g.openingStates) : Entered g s
  | character {s t : Nat} (before : Entered g s) (reads : (g.state s).hasMoves = true)
    (goes : (g.state s).next = some t) : Entered g t
  | epsilon {s t : Nat} (before : Entered g s) (edge : t ∈ (g.state s).epsilon) : Entered g t

theorem Relabelled.openingStates (same : Relabelled g h) : h.openingStates = g.openingStates := by
  unfold Graph.openingStates
  rw [same.initial]
  cases g.initial with
  | none => rfl
  | some initial => exact same.epsilon initial

/-- The list of a closed state with moves is the state itself. -/
theorem Completed.own_list (completed : Completed base sem g) {s : Nat} (reads : (g.state s).hasMoves = true)
    (closed : (g.state s).isClosed = true) : (g.state s).epsilon = [s] := by
  obtain ⟨n, goes⟩ := next_of_hasMoves (completed.idle s) reads
  obtain ⟨t, stands⟩ := (completed.next s n goes).2.1
  obtain ⟨code, accepts⟩ : ∃ code, (g.state s).moves.acceptsCode code = true := by
    by_contra none
    have empty : (g.state s).moves.isEmpty = true := (Moves.isEmpty_iff (completed.valid s)).mpr fun code => by
      rw [← Bool.not_eq_true]
      exact fun accepts => none ⟨code, accepts⟩
    unfold State.hasMoves at reads
    rw [empty] at reads
    cases reads
  have gets : GetsAny base sem s code t := (completed.mover s n goes code t).mp ⟨accepts, n, goes, stands⟩
  obtain ⟨m, member, _⟩ := completed.complete s closed code t gets
  refine (completed.alone s n goes).2.resolve_left fun bare => ?_
  rw [bare] at member
  cases member

theorem Labelled.entered (labelled : Labelled g h) (completed : Completed base sem g) {s : Nat} (entered : Entered h s)
    (reads : (h.state s).hasMoves = true) : (h.state s).name.isSome = true := by
  have same := labelled.same
  have mover : ∀ {q : Nat}, (h.state q).name.isSome = true → (g.state q).hasMoves = true := by
    intro q named
    obtain ⟨n, known⟩ := Option.isSome_iff_exists.mp named
    exact (labelled.known q n known).1
  -- The list of a named state, if it has one, is that state alone; so the induction also carries the names behind.
  have alone : ∀ {q r : Nat}, (h.state q).name.isSome = true → r ∈ (h.state q).epsilon → (h.state r).name.isSome = true := by
    intro q r named edge
    obtain ⟨n, goes⟩ := next_of_hasMoves (completed.idle q) (mover named)
    rw [same.epsilon] at edge
    rcases (completed.alone q n goes).2 with bare | own
    · rw [bare] at edge
      cases edge
    · rw [own, List.mem_singleton] at edge
      exact edge ▸ named
  have both : ((h.state s).hasMoves = true → (h.state s).name.isSome = true) ∧
      ∀ r ∈ (h.state s).epsilon, (h.state r).name.isSome = true := by
    clear reads
    induction entered with
    | @opening s member =>
      have named : (h.state s).name.isSome = true := by
        rw [same.openingStates] at member
        exact labelled.opening s member
      exact ⟨fun _ => named, fun r => alone named⟩
    | @character s t _ reads goes ih =>
      have named := ih.1 reads
      rw [same.next] at goes
      have listed : ∀ r ∈ (h.state t).epsilon, (h.state r).name.isSome = true := by
        intro r edge
        refine labelled.after s named r ?_
        unfold listAfter
        rw [goes]
        rwa [same.epsilon] at edge
      refine ⟨fun reads => listed t ?_, listed⟩
      rw [same.hasMoves] at reads
      rw [same.epsilon, completed.own_list reads (completed.entered s t goes).closed]
      exact List.mem_cons_self
    | @epsilon s t _ edge ih =>
      have named := ih.2 t edge
      exact ⟨fun _ => named, fun r => alone named⟩
  exact both.1 reads

/-! ### The numbering -/

/-- Names number what can be entered in a graph: a name for each first state, shared only by states that do the same. -/
structure Numbered (g : Graph) : Prop where
  first : ∀ n : EntryName, n < g.nameCount → ∃ r : Nat, g.named[n]? = some r ∧ (g.state r).name = some n
  alike : ∀ (s : Nat) (n : EntryName), (g.state s).name = some n → (g.state s).hasMoves = true ∧
    ∃ r : Nat, g.named[n]? = some r ∧ (g.state s).moves = (g.state r).moves ∧
      (g.state s).reported = (g.state r).reported ∧ g.listAfter s = g.listAfter r
  entered : ∀ s : Nat, Entered g s → (g.state s).hasMoves = true → (g.state s).name.isSome = true
  groups : GroupsApart g

/-- A table entry lists these members: a single one is listed by its own entry, several by the entry of a group. -/
def Lists (g : Graph) (offset : Nat) (name : EntryName) (members : List EntryName) : Prop :=
  (∀ n, n ∈ members ↔ n = name) ∧
      (∃ r : Nat, g.named[name]? = some r ∧ (g.entries offset)[name]? = some (g.entry offset r)) ∨
    ∃ listed, (g.entries offset)[name]? = some (.group (listed.map (· + offset))) ∧ Ascending listed ∧
      2 ≤ listed.length ∧ ∀ n, n ∈ listed ↔ n ∈ members

theorem Labelled.numbered (labelled : Labelled g h) (completed : Completed base sem g) (apart : GroupsApart h) :
    Numbered h where
  first n low := ⟨_, Array.getElem?_eq_getElem low, labelled.first n _ (Array.getElem?_eq_getElem low)⟩
  alike s n known := by
    obtain ⟨reads, reported, r, place, alike⟩ := labelled.known s n known
    obtain ⟨_, reportedFirst, _⟩ := labelled.known r n (labelled.first n r place)
    have same := labelled.same
    refine ⟨by rwa [same.hasMoves], r, place, ?_, ?_, ?_⟩
    · rw [same.moves, same.moves, alike.moves]
    · rw [reported, reportedFirst, alike.kind]
    · rw [same.listAfter, same.listAfter, alike.list]
  entered s entered := labelled.entered completed entered
  groups := apart

theorem StandsFor.lists (apart : GroupsApart g) {n : EntryName} {names : List EntryName}
    (stands : g.StandsFor (some n) (ascending names)) (offset : Nat) : Lists g offset n names := by
  rcases stands with ⟨single, low⟩ | ⟨i, place, rfl⟩
  · refine .inl ⟨fun m => ?_, _, Array.getElem?_eq_getElem low, Tokenizer.entries_single (Array.getElem?_eq_getElem low)⟩
    rw [← mem_ascending, single, List.mem_singleton]
  · obtain ⟨ascends, several⟩ := apart.several i _ place
    exact .inr ⟨_, Tokenizer.entries_group place, ascends, several, fun m => mem_ascending⟩

theorem StandsFor.name_of_ne_nil {names : List EntryName} (stands : g.StandsFor name (ascending names))
    (some : names ≠ []) : ∃ n, name = Option.some n := by
  cases name with
  | some n => exact ⟨n, rfl⟩
  | none =>
    have empty : ascending names = [] := stands
    obtain ⟨n, member⟩ := List.exists_mem_of_ne_nil _ some
    rw [← mem_ascending, empty] at member
    cases member

theorem GroupsApart.name_eq_iff (apart : GroupsApart g) {one other : List EntryName} {nameOther : Option EntryName}
    (stands : g.StandsFor name (ascending one)) (standsOther : g.StandsFor nameOther (ascending other))
    (some : one ≠ []) : name = nameOther ↔ ∀ n, n ∈ one ↔ n ∈ other := by
  constructor
  · rintro rfl n
    obtain ⟨m, rfl⟩ := stands.name_of_ne_nil some
    rw [← mem_ascending, stands.unique standsOther, mem_ascending]
  · intro same
    have equal : ascending one = ascending other :=
      (ascending_ascending one).ext (ascending_ascending other) fun n => by simp [same n]
    have again := apart.again stands
    rw [← equal] at standsOther
    exact congrArg Prod.snd (again.symm.trans (apart.again standsOther))

/-- The names of a closed graph of rules are a faithful numbering, also after any number of sets have been named: of the
states that can be entered, and of the sets, which get the same name only if they are equal. Naming once more comes to
the same. -/
theorem names_number_states {defs : Definitions} {unicodeInput : Bool} {rules : List Rule} {built : Graph}
    (ok : Graph.ofRules defs unicodeInput rules = .ok built) (mode : Closing) {sets : List (List EntryName)}
    (real : ∀ names ∈ sets, ∀ n ∈ names, n < (built.completeAll mode).nameAll.1.nameCount) :
    let named := (built.completeAll mode).nameAll
    let asked := named.1.nameGroups sets
    Numbered asked.1 ∧
      (∀ (i : Nat) (names : List EntryName), sets[i]? = some names → names ≠ [] →
        ∃ n, asked.2[i]? = some (some n) ∧ ∀ offset, Lists asked.1 offset n names) ∧
      (∀ (i j : Nat) (one other : List EntryName), sets[i]? = some one → sets[j]? = some other → one ≠ [] → other ≠ [] →
        (asked.2[i]? = asked.2[j]? ↔ ∀ n, n ∈ one ↔ n ∈ other)) ∧
      asked.1.nameAll = (asked.1, named.2) := by
  obtain ⟨pieces, ruled, _⟩ := ofRules_ruled ok
  have fresh := ruled.fresh
  obtain ⟨sem, completed⟩ := completeAll_completed fresh mode
  have nameable := completed.nameable fresh
  obtain ⟨labelled, _, _⟩ := nameAll_labelled nameable
  obtain ⟨more, apart, answers⟩ := (nameAll_groupsApart nameable).nameGroups real
  intro named asked
  refine ⟨(labelled.moreGroups more).numbered completed apart, fun i names place some => ?_,
    fun i j one other placeOne placeOther some _ => ?_, nameAll_again nameable (fun s start => ?_) more apart⟩
  · obtain ⟨answer, given, stands⟩ := answers i names place
    obtain ⟨n, rfl⟩ := stands.name_of_ne_nil some
    exact ⟨n, given, stands.lists apart⟩
  · obtain ⟨name, given, stands⟩ := answers i one placeOne
    obtain ⟨nameOther, givenOther, standsOther⟩ := answers j other placeOther
    rw [given, givenOther, Option.some_inj]
    exact apart.name_eq_iff stands standsOther some
  · rw [completed.initial, fresh.initial] at start
    obtain rfl := Option.some.inj start
    obtain ⟨moves, next, _⟩ := completed.kept 0 fresh.size_pos
    rw [moves, next, ruled.initial]
    exact ⟨rfl, rfl⟩

/-- Two rules of two characters have four names. The set of the names at their beginning has got its own already, under
which it is found again in another order; another set gets the next one. -/
theorem two_rules_numbered :
    ∃ built, Graph.ofRules [] false [⟨1, .literal .unknown "ab", false⟩, ⟨2, .literal .unknown "cd", false⟩] = .ok built ∧
      let named := (built.completeAll .merging).nameAll
      let asked := named.1.nameGroups [[1, 3], [3, 1, 1], [0, 2]]
      named.1.nameCount = 4 ∧ asked.2 = [named.2, named.2, some 5] ∧ Numbered asked.1 ∧
        asked.2[0]? = asked.2[1]? ∧ asked.2[1]? ≠ asked.2[2]? ∧ Lists asked.1 7 5 [0, 2] ∧
        asked.1.nameAll = (asked.1, named.2) := by
  obtain ⟨built, ok, count, answers⟩ : ∃ built,
      Graph.ofRules [] false [⟨1, .literal .unknown "ab", false⟩, ⟨2, .literal .unknown "cd", false⟩] = .ok built ∧
      (built.completeAll .merging).nameAll.1.nameCount = 4 ∧
      ((built.completeAll .merging).nameAll.1.nameGroups [[1, 3], [3, 1, 1], [0, 2]]).2 =
        [(built.completeAll .merging).nameAll.2, (built.completeAll .merging).nameAll.2, some 5] := by
    refine ⟨_, by rfl, ?_, ?_⟩
    · cbv
    · cbv
  have real : ∀ names ∈ [[1, 3], [3, 1, 1], [0, 2]], ∀ n ∈ names, n < (built.completeAll .merging).nameAll.1.nameCount := by
    rw [count]
    decide
  obtain ⟨numbered, listed, same, again⟩ := names_number_states ok .merging real
  refine ⟨built, ok, count, answers, numbered, ?_, ?_, ?_, again⟩
  · exact (same 0 1 _ _ rfl rfl (by simp) (by simp)).mpr fun n => by simp [or_comm]
  · intro equal
    have member := (same 1 2 _ _ rfl rfl (by simp) (by simp)).mp equal 1
    simp at member
  · obtain ⟨n, given, lists⟩ := listed 2 _ rfl (by simp)
    rw [answers] at given
    obtain rfl := Option.some.inj (Option.some.inj given)
    exact lists 7

end TokenTables.Automaton.Graph
