import TokenTables.Automaton.EntryNames
import TokenTables.Proofs.Automaton.Completion

/-!
Naming. Every state that can be entered gets a name, and a state shares its name only with states that accept the
same characters, report the same kind and go on to the same list.
-/

namespace TokenTables.Automaton.Graph

variable {base g h : Graph} {asked promised : Set Nat} {id : Nat}

/-- The kind matched by a move out of a state. -/
def kindAfter (g : Graph) (s : Nat) : Option Kind := (g.state s).next.bind fun n => (g.state n).kind

/-- The states active after a move out of a state. -/
def listAfter (g : Graph) (s : Nat) : List StateId :=
  match (g.state s).next with
  | some n => (g.state n).epsilon
  | none => []

/-- What two states of one name have in common. -/
structure Alike (g : Graph) (s t : Nat) : Prop where
  moves : (g.state s).moves = (g.state t).moves
  kind : g.kindAfter s = g.kindAfter t
  list : g.listAfter s = g.listAfter t

theorem Alike.refl (g : Graph) (s : Nat) : Alike g s s := ⟨rfl, rfl, rfl⟩

theorem Alike.trans {s t u : Nat} (one : Alike g s t) (two : Alike g t u) : Alike g s u :=
  ⟨one.moves.trans two.moves, one.kind.trans two.kind, one.list.trans two.list⟩

/-- A graph that is ready to be named. -/
structure Nameable (g : Graph) : Prop where
  unnamed : ∀ s : Nat, Unnamed (g.state s)
  noNames : g.named = #[] ∧ g.groups = #[]
  goes : ∀ s : Nat, (g.state s).hasMoves = true → ∃ n, (g.state s).next = some n
  entered : ∀ s n : Nat, (g.state s).next = some n → Done g n
  opening : ∀ s : Nat, g.initial = some s → Done g s

/-- The second graph is the first with other names. -/
structure Relabelled (g h : Graph) : Prop where
  size : h.size = g.size
  initial : h.initial = g.initial
  state : ∀ s : Nat, h.state s = { g.state s with
    reported := (h.state s).reported, name := (h.state s).name, isAlias := (h.state s).isAlias
    namesBehind := (h.state s).namesBehind }

theorem Relabelled.refl (g : Graph) : Relabelled g g := ⟨rfl, rfl, fun _ => rfl⟩

theorem Relabelled.trans {f g h : Graph} (one : Relabelled f g) (two : Relabelled g h) : Relabelled f h where
  size := two.size.trans one.size
  initial := two.initial.trans one.initial
  state s := by
    rw [two.state s, one.state s]

theorem Relabelled.alter {change : State → State} (same : ∀ s : State, change s = { s with
    reported := (change s).reported, name := (change s).name, isAlias := (change s).isAlias
    namesBehind := (change s).namesBehind }) : Relabelled g (g.alter id change) where
  size := size_alter
  initial := rfl
  state s := by
    rw [state_alter]
    split
    · rename_i here
      rw [here.1, same]
    · rfl

theorem Relabelled.moves (same : Relabelled g h) (s : Nat) : (h.state s).moves = (g.state s).moves := by
  rw [same.state s]

theorem Relabelled.hasMoves (same : Relabelled g h) (s : Nat) : (h.state s).hasMoves = (g.state s).hasMoves := by
  rw [same.state s]
  rfl

theorem Relabelled.next (same : Relabelled g h) (s : Nat) : (h.state s).next = (g.state s).next := by
  rw [same.state s]

theorem Relabelled.epsilon (same : Relabelled g h) (s : Nat) : (h.state s).epsilon = (g.state s).epsilon := by
  rw [same.state s]

theorem Relabelled.kind (same : Relabelled g h) (s : Nat) : (h.state s).kind = (g.state s).kind := by
  rw [same.state s]

theorem Relabelled.kindAfter (same : Relabelled g h) (s : Nat) : h.kindAfter s = g.kindAfter s := by
  unfold Graph.kindAfter
  rw [same.next]
  exact congrArg _ (funext fun n => same.kind n)

theorem Relabelled.listAfter (same : Relabelled g h) (s : Nat) : h.listAfter s = g.listAfter s := by
  unfold Graph.listAfter
  rw [same.next]
  cases (g.state s).next with
  | none => rfl
  | some n => exact same.epsilon n

/-- No name and no list of names is lost. -/
structure Further (g h : Graph) : Prop where
  name : ∀ (s : Nat) (n : EntryName), (g.state s).name = some n → (h.state s).name = some n
  behind : ∀ s : Nat, (g.state s).namesBehind.isSome = true → (h.state s).namesBehind.isSome = true

theorem Further.refl (g : Graph) : Further g g := ⟨fun _ _ known => known, fun _ known => known⟩

theorem Further.trans {f g h : Graph} (one : Further f g) (two : Further g h) : Further f h :=
  ⟨fun s n known => two.name s n (one.name s n known), fun s known => two.behind s (one.behind s known)⟩

theorem Further.isNamed (further : Further g h) {s : Nat} (known : (g.state s).name.isSome = true) :
    (h.state s).name.isSome = true := by
  obtain ⟨n, same⟩ := Option.isSome_iff_exists.mp known
  rw [further.name s n same]
  rfl

/-- The names of the states behind the epsilon moves of `s`. -/
def namesOf (g : Graph) (s : Nat) : List EntryName := (g.state s).epsilon.filterMap fun q => (g.state q).name

/-- What naming keeps to. The lists behind `asked` states are being collected, and those behind `promised` states
are about to be. -/
structure Naming (base : Graph) (asked promised : Set Nat) (g : Graph) : Prop where
  same : Relabelled base g
  groups : g.groups = #[]
  known : ∀ (s : Nat) (n : EntryName), (g.state s).name = some n →
    (base.state s).hasMoves = true ∧ (g.state s).reported = base.kindAfter s ∧
      ∃ first, g.named[n]? = some first ∧ Alike base s first
  first : ∀ (n : EntryName) (r : StateId), g.named[n]? = some r → (g.state r).name = some n
  reported : ∀ s : Nat, (g.state s).reported = none ∨ (g.state s).reported = base.kindAfter s
  visited : ∀ (n : EntryName) (r m : StateId), g.named[n]? = some r → (base.state r).next = some m →
    (base.state m).epsilon = [] ∨ (g.state m).namesBehind.isSome = true ∨ m ∈ promised
  behind : ∀ (s : Nat) (names : List EntryName), (g.state s).namesBehind = some names → s ∈ asked ∨
    names = g.namesOf s ∧ ∀ q : Nat, q ∈ (base.state s).epsilon → (g.state q).name.isSome = true

theorem Naming.name_lt (naming : Naming base asked promised g) {s : Nat} {n : EntryName}
    (known : (g.state s).name = some n) : n < g.nameCount := by
  obtain ⟨_, _, first, place, _⟩ := naming.known s n known
  exact (Array.getElem?_eq_some_iff.mp place).1

theorem Naming.namesOf_lt (naming : Naming base asked promised g) {s : Nat} : ∀ n ∈ g.namesOf s, n < g.nameCount := by
  intro n member
  obtain ⟨q, _, known⟩ := List.mem_filterMap.mp member
  exact naming.name_lt known

theorem Nameable.naming (nameable : Nameable base) : Naming base ∅ ∅ base where
  same := .refl base
  groups := nameable.noNames.2
  known s n named := by
    rw [(nameable.unnamed s).name] at named
    cases named
  first n r known := by
    rw [nameable.noNames.1] at known
    cases known
  reported s := .inl (nameable.unnamed s).reported
  visited n r m known := by
    rw [nameable.noNames.1] at known
    cases known
  behind s names known := by
    rw [(nameable.unnamed s).namesBehind] at known
    cases known

/-! ### Single changes -/

theorem Further.namesOf (further : Further g h) (same : Relabelled g h) {s : Nat}
    (named : ∀ q : Nat, q ∈ (g.state s).epsilon → (g.state q).name.isSome = true) : h.namesOf s = g.namesOf s := by
  unfold Graph.namesOf
  rw [same.epsilon]
  refine List.filterMap_congr fun q member => ?_
  obtain ⟨n, known⟩ := Option.isSome_iff_exists.mp (named q member)
  rw [known, further.name q n known]

/-- The lists of names stay as they are while more states get names. -/
theorem Naming.behind_further (naming : Naming base asked promised g) (same : Relabelled g h) (further : Further g h)
    {s : Nat} {names : List EntryName} (known : (g.state s).namesBehind = some names) : s ∈ asked ∨
      names = h.namesOf s ∧ ∀ q : Nat, q ∈ (base.state s).epsilon → (h.state q).name.isSome = true := by
  rcases naming.behind s names known with pending | ⟨rfl, named⟩
  · exact .inl pending
  · refine .inr ⟨(further.namesOf same fun q member => named q ?_).symm, fun q member => further.isNamed (named q member)⟩
    rwa [naming.same.epsilon] at member

/-- Only what a state reports has changed. -/
theorem Naming.report (naming : Naming base asked promised g) {kind : Kind} (reports : base.kindAfter id = some kind) :
    Naming base asked promised (g.alter id fun s => { s with reported := some kind }) ∧
      Further g (g.alter id fun s => { s with reported := some kind }) := by
  have relabelled : Relabelled g (g.alter id fun s => { s with reported := some kind }) := .alter fun s => rfl
  have state : ∀ s : Nat, (g.alter id fun s => { s with reported := some kind }).state s = { g.state s with
      reported := ((g.alter id fun s => { s with reported := some kind }).state s).reported } := by
    intro s
    rw [state_alter]
    split
    · rename_i here
      rw [here.1]
    · rfl
  have reported : ∀ s : Nat, ((g.alter id fun s => { s with reported := some kind }).state s).reported =
      (g.state s).reported ∨
      ((g.alter id fun s => { s with reported := some kind }).state s).reported = base.kindAfter s := by
    intro s
    rw [state_alter]
    split
    · rename_i here
      exact .inr (here.1 ▸ reports.symm)
    · exact .inl rfl
  have named : (g.alter id fun s => { s with reported := some kind }).named = g.named := rfl
  have groups : (g.alter id fun s => { s with reported := some kind }).groups = g.groups := rfl
  generalize (g.alter id fun s => { s with reported := some kind }) = h at relabelled state reported named groups
  have further : Further g h := ⟨fun s n known => by rw [state s]; exact known, fun s known => by rw [state s]; exact known⟩
  refine ⟨⟨naming.same.trans relabelled, groups.trans naming.groups, fun s n known => ?_, fun n r known => ?_,
    fun s => ?_, fun n r m known goes => ?_, fun s names known => ?_⟩, further⟩
  · rw [state s] at known
    obtain ⟨moves, before, found⟩ := naming.known s n known
    rw [named]
    refine ⟨moves, ?_, found⟩
    rcases reported s with same | same
    · exact same.trans before
    · exact same
  · rw [named] at known
    rw [state r]
    exact naming.first n r known
  · rcases reported s with same | same
    · rw [same]
      exact naming.reported s
    · exact .inr same
  · rw [named] at known
    rw [state m]
    exact naming.visited n r m known goes
  · rw [state s] at known
    exact naming.behind_further relabelled further known

/-- A state without a name gets one, either a known one or a new one. -/
theorem Naming.give (naming : Naming base asked promised g) {after : Set Nat} {n : EntryName} {first : StateId}
    (unnamed : (g.state id).name = none) (moves : (base.state id).hasMoves = true)
    (reported : (g.state id).reported = base.kindAfter id) (relabelled : Relabelled g h)
    (same : (h.state id).name = some n ∧ (h.state id).reported = (g.state id).reported ∧
      (h.state id).namesBehind = (g.state id).namesBehind)
    (other : ∀ s : Nat, s ≠ id → h.state s = g.state s) (groups : h.groups = g.groups)
    (old : ∀ (k : EntryName) (r : StateId), g.named[k]? = some r → h.named[k]? = some r)
    (new : ∀ (k : EntryName) (r : StateId), h.named[k]? = some r → g.named[k]? = some r ∨
      k = n ∧ r = id ∧ ∀ m, (base.state id).next = some m → m ∈ after)
    (here : h.named[n]? = some first) (alike : Alike base id first) (more : promised ⊆ after) :
    Naming base asked after h ∧ Further g h := by
  have behind : ∀ s : Nat, (h.state s).namesBehind = (g.state s).namesBehind := by
    intro s
    by_cases isId : s = id
    · rw [isId, same.2.2]
    · rw [other s isId]
  have reports : ∀ s : Nat, (h.state s).reported = (g.state s).reported := by
    intro s
    by_cases isId : s = id
    · rw [isId, same.2.1]
    · rw [other s isId]
  have further : Further g h := by
    refine ⟨fun s k known => ?_, fun s known => by rwa [behind]⟩
    have different : s ≠ id := by
      rintro rfl
      rw [unnamed] at known
      cases known
    rwa [other s different]
  refine ⟨⟨naming.same.trans relabelled, groups.trans naming.groups, fun s k known => ?_, fun k r known => ?_,
    fun s => ?_, fun k r m known goes => ?_, fun s names known => ?_⟩, further⟩
  · rw [reports]
    by_cases isId : s = id
    · subst isId
      obtain rfl := Option.some.inj (same.1.symm.trans known)
      exact ⟨moves, reported, first, here, alike⟩
    · rw [other s isId] at known
      obtain ⟨movesS, before, r, found, alikeS⟩ := naming.known s k known
      exact ⟨movesS, before, r, old k r found, alikeS⟩
  · rcases new k r known with before | ⟨rfl, rfl, _⟩
    · exact further.name r k (naming.first k r before)
    · exact same.1
  · rw [reports]
    exact naming.reported s
  · rw [behind]
    rcases new k r known with before | ⟨rfl, rfl, pledged⟩
    · rcases naming.visited k r m before goes with bare | collected | pending
      · exact .inl bare
      · exact .inr (.inl collected)
      · exact .inr (.inr (more pending))
    · exact .inr (.inr (pledged m goes))
  · rw [behind] at known
    exact naming.behind_further relabelled further known

/-- The kind that is reported is that of the next state. -/
theorem reportNext_ok (id : Nat) (naming : Naming base asked promised g) :
    Naming base asked promised (g.reportNext id) ∧ Further g (g.reportNext id) ∧
      ((g.reportNext id).state id).reported = base.kindAfter id := by
  have after : base.kindAfter id = g.kindAfter id := (naming.same.kindAfter id).symm
  unfold reportNext
  split
  · rename_i halts
    refine ⟨naming, .refl g, ?_⟩
    rcases naming.reported id with none | same
    · rw [none, after, kindAfter, halts]
      rfl
    · exact same
  · rename_i next goes
    split
    · rename_i noKind
      refine ⟨naming, .refl g, ?_⟩
      rcases naming.reported id with none | same
      · rw [none, after, kindAfter, goes]
        exact noKind.symm
      · exact same
    · rename_i kind same
      have reports : base.kindAfter id = some kind := by
        rw [after, kindAfter, goes]
        exact same
      obtain ⟨reporting, further⟩ := naming.report reports
      exact ⟨reporting, further, by rw [state_alter_same (lt_size_of_next goes), reports]⟩

theorem reportNext_size : (g.reportNext id).size = g.size := by
  unfold reportNext
  split
  · rfl
  · split
    · rfl
    · exact size_alter

theorem nameOfEqual?_alike {n : EntryName} (found : g.nameOfEqual? id = some n) :
    ∃ t : Nat, (g.state t).name = some n ∧ (g.state t).reported = (g.state id).reported ∧
      (g.state id).moves = (g.state t).moves ∧ ((g.state id).next.isSome = true → g.listAfter id = g.listAfter t) := by
  unfold nameOfEqual? at found
  dsimp only at found
  obtain ⟨t, search, name⟩ := Option.bind_eq_some_iff.mp found
  have equal := List.find?_some search
  simp only [Bool.and_eq_true, beq_iff_eq] at equal
  obtain ⟨⟨⟨_, reported⟩, moves⟩, successors⟩ := equal
  refine ⟨t, name, reported, moves, fun goes => ?_⟩
  obtain ⟨i, goesId⟩ := Option.isSome_iff_exists.mp goes
  unfold sameSuccessors at successors
  unfold listAfter
  rw [goesId] at successors ⊢
  cases goesT : (g.state t).next with
  | none =>
    rw [goesT] at successors
    simp at successors
  | some j =>
    rw [goesT] at successors
    simp only [Bool.or_eq_true, beq_iff_eq, Option.some.injEq] at successors
    rcases successors with rfl | same
    · rfl
    · exact same

/-! ### The walk -/

/-- How many lists of names have not been asked for. -/
def uncollected (g : Graph) : Nat :=
  ((List.range g.size).filter fun s => (g.state s).namesBehind.isNone).length

theorem uncollected_le_size : g.uncollected ≤ g.size := by
  have le := List.length_filter_le (fun s => (g.state s).namesBehind.isNone) (List.range g.size)
  rwa [List.length_range] at le

theorem Further.uncollected_le (further : Further g h) (size : h.size = g.size) : h.uncollected ≤ g.uncollected := by
  unfold uncollected
  rw [size]
  refine List.Sublist.length_le (List.monotone_filter_right _ fun s => ?_)
  intro none
  rw [Option.isNone_iff_eq_none] at none ⊢
  cases known : (g.state s).namesBehind with
  | none => rfl
  | some names =>
    have kept := further.behind s (by rw [known]; rfl)
    rw [none] at kept
    cases kept

/-- What is asked of a visit to the states behind a state. -/
def Visits (base : Graph) (asked : Set Nat) (bound : Nat) (visit : Graph → StateId → Graph) : Prop :=
  ∀ (g : Graph) (promised : Set Nat) (m : Nat), Naming base asked promised g → g.uncollected < bound → Done base m →
    Naming base asked promised (visit g m) ∧ Further g (visit g m) ∧
      ((visit g m).state m).namesBehind.isSome = true

variable {bound : Nat} {visit : Graph → StateId → Graph}

theorem Naming.keep (naming : Naming base asked (insert id promised) g)
    (collected : (base.state id).epsilon = [] ∨ (g.state id).namesBehind.isSome = true) :
    Naming base asked promised g where
  same := naming.same
  groups := naming.groups
  known := naming.known
  first := naming.first
  reported := naming.reported
  visited n r m known goes := by
    rcases naming.visited n r m known goes with bare | asked | pending
    · exact .inl bare
    · exact .inr (.inl asked)
    · rcases Set.mem_insert_iff.mp pending with rfl | before
      · exact collected.imp_right .inl
      · exact .inr (.inr before)
  behind := naming.behind

theorem Naming.addName (naming : Naming base asked promised g) (unnamed : (g.state id).name = none)
    (moves : (base.state id).hasMoves = true) (reported : (g.state id).reported = base.kindAfter id)
    {next : StateId} (goes : (base.state id).next = some next) :
    Naming base asked (insert next promised) (g.addName id) ∧ Further g (g.addName id) ∧
      ((g.addName id).state id).name.isSome = true := by
  have inside : id < g.size := lt_size_of_hasMoves (by rwa [naming.same.hasMoves])
  have size : g.named[g.nameCount]? = none := Array.getElem?_eq_none (Nat.le_refl _)
  have here : (g.addName id).state id = { g.state id with name := some g.nameCount } := by
    unfold Graph.addName
    exact state_alter_same inside
  have given := @Naming.give base g (g.addName id) asked promised id naming (insert next promised) g.nameCount id
    unnamed moves reported ?_ ⟨by rw [here], by rw [here], by rw [here]⟩ ?_ rfl ?_ ?_ ?_ (.refl base id)
    (Set.subset_insert next promised)
  · exact ⟨given.1, given.2, by rw [here]; rfl⟩
  · have altered : Relabelled g (g.alter id fun s => { s with name := some g.nameCount }) := .alter fun s => rfl
    exact ⟨altered.size, altered.initial, altered.state⟩
  · intro s different
    exact state_alter_other different
  · intro k r known
    have lower := (Array.getElem?_eq_some_iff.mp known).1
    show (g.named.push id)[k]? = some r
    rw [Array.getElem?_push, if_neg (Nat.ne_of_lt lower)]
    exact known
  · intro k r known
    have pushed : (g.named.push id)[k]? = some r := known
    rw [Array.getElem?_push] at pushed
    split at pushed
    · rename_i last
      refine .inr ⟨last, (Option.some.inj pushed).symm, fun m same => ?_⟩
      obtain rfl := Option.some.inj (goes.symm.trans same)
      exact Set.mem_insert _ _
    · exact .inl pushed
  · show (g.named.push id)[g.nameCount]? = some id
    rw [Array.getElem?_push]
    exact if_pos rfl

theorem settle_ok (nameable : Nameable base) (visits : Visits base asked bound visit)
    (id : Nat) (naming : Naming base asked promised g) (few : g.uncollected < bound) :
    Naming base asked promised (settle visit g id) ∧ Further g (settle visit g id) ∧
      ((base.state id).hasMoves = true → ((settle visit g id).state id).name.isSome = true) := by
  obtain ⟨naming, further, reported⟩ := reportNext_ok id naming
  have few := (further.uncollected_le reportNext_size).trans_lt few
  unfold settle
  dsimp only
  generalize g.reportNext id = before at naming further reported few
  split
  · rename_i finished
    refine ⟨naming, further, fun moves => ?_⟩
    rw [naming.same.hasMoves, moves] at finished
    simpa using finished
  rename_i unfinished
  simp only [Bool.or_eq_true, Bool.not_eq_true', not_or, Bool.not_eq_true, Option.isSome_eq_false_iff,
    Option.isNone_iff_eq_none, Bool.not_eq_false] at unfinished
  obtain ⟨unnamed, movesNow⟩ := unfinished
  have moves : (base.state id).hasMoves = true := by rwa [naming.same.hasMoves] at movesNow
  obtain ⟨next, goes⟩ := nameable.goes id moves
  have inside : id < before.size := lt_size_of_hasMoves movesNow
  split
  · rename_i n equal
    obtain ⟨t, known, sameReport, sameMoves, sameList⟩ := nameOfEqual?_alike equal
    obtain ⟨_, reportedT, first, found, alike⟩ := naming.known t n known
    have alikeHere : Alike base id t := by
      refine ⟨?_, ?_, ?_⟩
      · rw [← naming.same.moves, ← naming.same.moves]
        exact sameMoves
      · rw [← reported, ← reportedT, sameReport]
      · rw [← naming.same.listAfter, ← naming.same.listAfter]
        refine sameList ?_
        rw [naming.same.next, goes]
        rfl
    have here := @state_alter_same before id (fun s => { s with name := some n, isAlias := true }) inside
    obtain ⟨given, more⟩ := @Naming.give base before (before.alter id fun s => { s with name := some n, isAlias := true })
      asked promised id naming promised n first unnamed moves reported (.alter fun s => rfl)
      ⟨by rw [here], by rw [here], by rw [here]⟩ (fun s different => state_alter_other different) rfl
      (fun k r known => known) (fun k r known => .inl known) found (alikeHere.trans alike) (le_refl _)
    exact ⟨given, further.trans more, fun _ => by rw [here]; rfl⟩
  · obtain ⟨named, more, isNamed⟩ := naming.addName unnamed moves reported goes
    have size : (before.addName id).size = before.size := size_alter
    have few := (more.uncollected_le size).trans_lt few
    have goesNow : (before.state id).next = some next := by rw [naming.same.next, goes]
    have done := nameable.entered id next goes
    rw [goesNow]
    dsimp only
    split
    · obtain ⟨visited, most, collected⟩ := visits (before.addName id) (insert next promised) next named few done
      exact ⟨visited.keep (.inr collected), further.trans (more.trans most), fun _ => most.isNamed isNamed⟩
    · rename_i nothing
      have bare : (base.state next).epsilon = [] := by
        have count : ((before.addName id).state next).keptEpsilon = (base.state next).keptEpsilon := by
          rw [named.same.state next]
        rw [count, done.count] at nothing
        exact List.eq_nil_of_length_eq_zero (by omega)
      exact ⟨named.keep (.inl bare), further.trans more, fun _ => isNamed⟩

theorem settleAll_ok (nameable : Nameable base) (visits : Visits base asked bound visit) (chain : List Nat)
    (naming : Naming base asked promised g) (few : g.uncollected < bound) :
    Naming base asked promised (chain.foldl (settle visit) g) ∧ Further g (chain.foldl (settle visit) g) ∧
      ∀ s ∈ chain, (base.state s).hasMoves = true →
        ((chain.foldl (settle visit) g).state s).name.isSome = true := by
  induction chain generalizing g with
  | nil => exact ⟨naming, .refl g, fun s member => absurd member List.not_mem_nil⟩
  | cons s rest ih =>
    rw [List.foldl_cons]
    obtain ⟨settled, further, named⟩ := settle_ok nameable visits s naming few
    have size : (settle visit g s).size = g.size := settled.same.size.trans naming.same.size.symm
    obtain ⟨all, more, others⟩ := ih settled ((further.uncollected_le size).trans_lt few)
    refine ⟨all, further.trans more, fun t member moves => ?_⟩
    rcases List.mem_cons.mp member with rfl | later
    · exact more.isNamed (named moves)
    · exact others t later moves

theorem mem_unnamedChain {limit : Nat} {s t : Nat} {chain : List StateId} (member : t ∈ chain) :
    t ∈ g.unnamedChain limit s chain := by
  induction limit generalizing s chain with
  | zero => exact member
  | succ limit ih =>
    rw [unnamedChain]
    split
    · exact member
    · split
      · exact List.mem_cons_of_mem _ member
      · exact ih (List.mem_cons_of_mem _ member)

theorem nameChain_ok (nameable : Nameable base) (visits : Visits base asked bound visit)
    (id : Nat) (naming : Naming base asked promised g) (few : g.uncollected < bound) :
    Naming base asked promised (nameChain visit g id) ∧ Further g (nameChain visit g id) ∧
      ((base.state id).hasMoves = true → ((nameChain visit g id).state id).name.isSome = true) := by
  unfold nameChain
  obtain ⟨all, further, named⟩ := settleAll_ok nameable visits (g.unnamedChain (g.size + 1) id []) naming few
  refine ⟨all, further, fun moves => ?_⟩
  cases known : (g.state id).name.isSome with
  | true => exact further.isNamed known
  | false =>
    refine named id ?_ moves
    rw [unnamedChain, known, if_neg Bool.false_ne_true]
    split
    · exact List.mem_cons_self
    · exact mem_unnamedChain List.mem_cons_self

/-! ### Lists of names -/

theorem Naming.ask (naming : Naming base asked promised g) (fresh : (g.state id).namesBehind = none) :
    Naming base (insert id asked) promised (g.alter id fun s => { s with namesBehind := some [] }) ∧
      Further g (g.alter id fun s => { s with namesBehind := some [] }) := by
  have relabelled : Relabelled g (g.alter id fun s => { s with namesBehind := some [] }) := .alter fun s => rfl
  have state : ∀ s : Nat, (g.alter id fun s => { s with namesBehind := some [] }).state s = g.state s ∨
      s = id ∧ (g.alter id fun s => { s with namesBehind := some [] }).state s =
        { g.state s with namesBehind := some [] } := by
    intro s
    rw [state_alter]
    split
    · rename_i here
      exact .inr ⟨here.1, by rw [here.1]⟩
    · exact .inl rfl
  have frame : (g.alter id fun s => { s with namesBehind := some [] }).named = g.named ∧
      (g.alter id fun s => { s with namesBehind := some [] }).groups = g.groups := ⟨rfl, rfl⟩
  generalize (g.alter id fun s => { s with namesBehind := some [] }) = h at relabelled state frame
  have name : ∀ s : Nat, (h.state s).name = (g.state s).name ∧ (h.state s).reported = (g.state s).reported := by
    intro s
    rcases state s with same | ⟨_, same⟩
    · rw [same]
      exact ⟨rfl, rfl⟩
    · rw [same]
      exact ⟨rfl, rfl⟩
  have kept : ∀ s : Nat, (g.state s).namesBehind.isSome = true → (h.state s).namesBehind.isSome = true := by
    intro s known
    rcases state s with same | ⟨_, same⟩
    · rwa [same]
    · rw [same]
      rfl
  have further : Further g h := ⟨fun s n known => by rw [(name s).1]; exact known, kept⟩
  refine ⟨⟨naming.same.trans relabelled, frame.2.trans naming.groups, fun s n known => ?_, fun n r known => ?_,
    fun s => ?_, fun n r m known goes => ?_, fun s names known => ?_⟩, further⟩
  · rw [(name s).1] at known
    rw [(name s).2, frame.1]
    exact naming.known s n known
  · rw [frame.1] at known
    rw [(name r).1]
    exact naming.first n r known
  · rw [(name s).2]
    exact naming.reported s
  · rw [frame.1] at known
    exact (naming.visited n r m known goes).imp_right (Or.imp_left (kept m))
  · rcases state s with same | ⟨rfl, _⟩
    · rw [same] at known
      exact (naming.behind_further relabelled further known).imp_left fun pending => Set.mem_insert_of_mem _ pending
    · exact .inl (Set.mem_insert _ _)

theorem uncollected_ask (fresh : (g.state id).namesBehind = none) (inside : id < g.size) :
    (g.alter id fun s => { s with namesBehind := some [] }).uncollected < g.uncollected := by
  unfold uncollected
  rw [size_alter]
  refine @length_filter_lt _ _ _ id _ (fun s none => ?_) (List.mem_range.mpr inside) ?_ ?_
  · rw [state_alter] at none
    split at none
    · cases none
    · exact none
  · rw [fresh]
    rfl
  · rw [state_alter_same inside]
    rfl

/-- The list of a state has been collected: its members all have names. -/
theorem Naming.collect (naming : Naming base (insert id asked) promised g) (done : Done base id)
    (named : ∀ q : Nat, q ∈ (base.state id).epsilon → (g.state q).name.isSome = true) :
    Naming base asked promised (g.alter id fun s => { s with
      keptEpsilon := (g.namesOf id).length, namesBehind := some (g.namesOf id) }) ∧
      Further g (g.alter id fun s => { s with
        keptEpsilon := (g.namesOf id).length, namesBehind := some (g.namesOf id) }) := by
  have count : (g.namesOf id).length = (g.state id).keptEpsilon := by
    rw [naming.same.state id]
    refine Eq.trans ?_ done.count.symm
    unfold namesOf
    rw [naming.same.epsilon]
    exact List.filterMap_length_eq_length.mpr named
  have inside : id < g.size := by
    rw [naming.same.size]
    exact lt_of_isClosed done.closed
  rw [count]
  have here : (g.alter id fun s => { s with
      keptEpsilon := (g.state id).keptEpsilon, namesBehind := some (g.namesOf id) }).state id =
      { g.state id with namesBehind := some (g.namesOf id) } := state_alter_same inside
  have other : ∀ s : Nat, s ≠ id → (g.alter id fun s => { s with
      keptEpsilon := (g.state id).keptEpsilon, namesBehind := some (g.namesOf id) }).state s = g.state s :=
    fun s different => state_alter_other different
  have size : (g.alter id fun s => { s with
      keptEpsilon := (g.state id).keptEpsilon, namesBehind := some (g.namesOf id) }).size = g.size := size_alter
  have frame : (g.alter id fun s => { s with
      keptEpsilon := (g.state id).keptEpsilon, namesBehind := some (g.namesOf id) }).initial = g.initial ∧
      (g.alter id fun s => { s with
        keptEpsilon := (g.state id).keptEpsilon, namesBehind := some (g.namesOf id) }).named = g.named ∧
      (g.alter id fun s => { s with
        keptEpsilon := (g.state id).keptEpsilon, namesBehind := some (g.namesOf id) }).groups = g.groups :=
    ⟨rfl, rfl, rfl⟩
  generalize (g.alter id fun s => { s with
    keptEpsilon := (g.state id).keptEpsilon, namesBehind := some (g.namesOf id) }) = h at here other size frame
  have state : ∀ s : Nat, h.state s = { g.state s with namesBehind := (h.state s).namesBehind } := by
    intro s
    by_cases isId : s = id
    · rw [isId, here]
    · rw [other s isId]
  have relabelled : Relabelled g h := ⟨size, frame.1, fun s => by rw [state s]⟩
  have kept : ∀ s : Nat, (g.state s).namesBehind.isSome = true → (h.state s).namesBehind.isSome = true := by
    intro s known
    by_cases isId : s = id
    · rw [isId, here]
      rfl
    · rwa [other s isId]
  have further : Further g h := ⟨fun s n known => by rw [state s]; exact known, kept⟩
  refine ⟨⟨naming.same.trans relabelled, frame.2.2.trans naming.groups, fun s n known => ?_, fun n r known => ?_,
    fun s => ?_, fun n r m known goes => ?_, fun s names known => ?_⟩, further⟩
  · rw [state s] at known ⊢
    rw [frame.2.1]
    exact naming.known s n known
  · rw [frame.2.1] at known
    rw [state r]
    exact naming.first n r known
  · rw [state s]
    exact naming.reported s
  · rw [frame.2.1] at known
    exact (naming.visited n r m known goes).imp_right (Or.imp_left (kept m))
  · by_cases isId : s = id
    · subst isId
      rw [here] at known
      obtain rfl := Option.some.inj known
      refine .inr ⟨(further.namesOf relabelled fun q member => named q ?_).symm, fun q member => further.isNamed (named q member)⟩
      rwa [naming.same.epsilon] at member
    · rw [other s isId] at known
      exact (naming.behind_further relabelled further known).imp_left fun pending =>
        (Set.mem_insert_iff.mp pending).resolve_left isId

/-- One target after the other is named, and its name added. -/
def collectName (visit : Graph → StateId → Graph) (found : Graph × List EntryName) (target : StateId) :
    Graph × List EntryName :=
  if (found.1.state target).hasMoves then
    let g := nameChain visit found.1 target
    match (g.state target).name with
    | some name => (g, found.2 ++ [name])
    | none => (g, found.2)
  else found

theorem collectNames_succ (depth : Nat) (fresh : (g.state id).namesBehind = none) :
    collectNames (depth + 1) g id =
      let found := (g.state id).epsilon.foldl (collectName fun g id => (collectNames depth g id).1)
        (g.alter id fun s => { s with namesBehind := some [] }, [])
      (found.1.alter id fun s => { s with keptEpsilon := found.2.length, namesBehind := some found.2 }, found.2) := by
  rw [collectNames, fresh]
  rfl

theorem collectName_ok (nameable : Nameable base) (visits : Visits base asked bound visit) {targets before : List StateId}
    {names : List EntryName} (moves : ∀ q ∈ targets, (base.state q).hasMoves = true) (naming : Naming base asked promised g)
    (few : g.uncollected < bound) (same : names = before.filterMap fun q => (g.state q).name)
    (named : ∀ q ∈ before, (g.state q).name.isSome = true) :
    ∃ h, targets.foldl (collectName visit) (g, names) = (h, (before ++ targets).filterMap fun q => (h.state q).name) ∧
      Naming base asked promised h ∧ Further g h ∧ ∀ q ∈ before ++ targets, (h.state q).name.isSome = true := by
  induction targets generalizing g names before with
  | nil =>
    refine ⟨g, ?_, naming, .refl g, ?_⟩
    · rw [List.append_nil, ← same]
      rfl
    · rwa [List.append_nil]
  | cons q rest ih =>
    have movesQ := moves q List.mem_cons_self
    obtain ⟨step, further, isNamed⟩ := nameChain_ok nameable visits q naming few
    obtain ⟨n, known⟩ := Option.isSome_iff_exists.mp (isNamed movesQ)
    have first : collectName visit (g, names) q = (nameChain visit g q, names ++ [n]) := by
      unfold collectName
      dsimp only
      rw [naming.same.hasMoves, if_pos movesQ, known]
    have size : (nameChain visit g q).size = g.size := step.same.size.trans naming.same.size.symm
    have namedNow : ∀ r ∈ before ++ [q], ((nameChain visit g q).state r).name.isSome = true := by
      intro r member
      rcases List.mem_append.mp member with old | last
      · exact further.isNamed (named r old)
      · rw [List.mem_singleton.mp last]
        exact isNamed movesQ
    have sameNow : names ++ [n] = (before ++ [q]).filterMap fun r => ((nameChain visit g q).state r).name := by
      rw [List.filterMap_append, same]
      congr 1
      · refine List.filterMap_congr fun r member => ?_
        obtain ⟨k, knownR⟩ := Option.isSome_iff_exists.mp (named r member)
        rw [knownR, further.name r k knownR]
      · simp [known]
    obtain ⟨h, result, last, more, all⟩ := ih (fun r member => moves r (List.mem_cons_of_mem _ member)) step
      ((further.uncollected_le size).trans_lt few) sameNow namedNow
    refine ⟨h, ?_, last, further.trans more, ?_⟩
    · rw [List.foldl_cons, first, result, List.append_assoc]
      rfl
    · rwa [List.append_assoc] at all

theorem collectNames_ok (nameable : Nameable base) (depth : Nat) {asked : Set Nat} {g : Graph} {id : Nat}
    (naming : Naming base asked promised g) (few : g.uncollected < depth) (done : Done base id) :
    Naming base asked promised (collectNames depth g id).1 ∧ Further g (collectNames depth g id).1 ∧
      ((collectNames depth g id).1.state id).namesBehind.isSome = true ∧
      (id ∉ asked → (collectNames depth g id).2 = (collectNames depth g id).1.namesOf id ∧
        ∀ q : Nat, q ∈ (base.state id).epsilon → ((collectNames depth g id).1.state q).name.isSome = true) := by
  induction depth generalizing asked promised g id with
  | zero => omega
  | succ depth ih =>
    cases known : (g.state id).namesBehind with
    | some names =>
      have same : collectNames (depth + 1) g id = (g, names) := by
        rw [collectNames, known]
      rw [same]
      refine ⟨naming, .refl g, by rw [known]; rfl, fun apart => ?_⟩
      exact (naming.behind id names known).resolve_left apart
    | none =>
      have inside : id < g.size := by
        rw [naming.same.size]
        exact lt_of_isClosed done.closed
      obtain ⟨asking, further⟩ := naming.ask known
      have fewer := uncollected_ask known inside
      have visits : Visits base (insert id asked) depth fun g id => (collectNames depth g id).1 := by
        intro g promised m naming few done
        obtain ⟨after, more, collected, _⟩ := ih naming few done
        exact ⟨after, more, collected⟩
      obtain ⟨h, result, last, more, all⟩ := @collectName_ok base _ (insert id asked) promised depth _ nameable visits
        (g.state id).epsilon [] [] (fun q member => done.useful q (by rwa [naming.same.epsilon] at member)) asking
        (by omega) rfl (fun q member => absurd member List.not_mem_nil)
      rw [List.nil_append] at result all
      have names : ((g.state id).epsilon.filterMap fun q => (h.state q).name) = h.namesOf id := by
        unfold namesOf
        rw [last.same.epsilon, naming.same.epsilon]
      rw [collectNames_succ depth known, result]
      dsimp only
      rw [names]
      have namedAll : ∀ q : Nat, q ∈ (base.state id).epsilon → (h.state q).name.isSome = true := fun q member =>
        all q (by rwa [naming.same.epsilon])
      obtain ⟨collected, most⟩ := last.collect done namedAll
      have relabelled := collected.same
      have insideLast : id < h.size := by
        rw [last.same.size]
        exact lt_of_isClosed done.closed
      refine ⟨collected, further.trans (more.trans most), ?_, fun apart => ?_⟩
      · rw [state_alter_same insideLast]
        rfl
      · refine (collected.behind id _ ?_).resolve_left apart
        rw [state_alter_same insideLast]

/-! ### Groups -/

/-- Groups are named in order after the single states, and list these alone. -/
def GroupsInOrder (g : Graph) : Prop := ∀ (i : Nat) (c : NameGroup), g.groups[i]? = some c →
  c.name = g.nameCount + i ∧ ∀ n ∈ c.members, n < g.nameCount

/-- A name stands for these members: none for no members, a state for itself, a group for what it lists. -/
def StandsFor (g : Graph) (name : Option EntryName) (members : List EntryName) : Prop :=
  match name with
  | none => members = []
  | some n => members = [n] ∧ n < g.nameCount ∨ ∃ i : Nat, g.groups[i]? = some ⟨members, n⟩ ∧ n = g.nameCount + i

/-- Only groups have been added. -/
structure MoreGroups (g h : Graph) : Prop where
  states : h.states = g.states
  initial : h.initial = g.initial
  named : h.named = g.named
  groups : ∀ (i : Nat) (c : NameGroup), g.groups[i]? = some c → h.groups[i]? = some c

theorem MoreGroups.refl (g : Graph) : MoreGroups g g := ⟨rfl, rfl, rfl, fun _ _ known => known⟩

theorem MoreGroups.trans {f g h : Graph} (one : MoreGroups f g) (two : MoreGroups g h) : MoreGroups f h :=
  ⟨two.states.trans one.states, two.initial.trans one.initial, two.named.trans one.named,
    fun i c known => two.groups i c (one.groups i c known)⟩

theorem MoreGroups.state (more : MoreGroups g h) (s : Nat) : h.state s = g.state s := by
  unfold Graph.state
  rw [more.states]

theorem MoreGroups.entryNames (more : MoreGroups g h) (ids : List StateId) : h.entryNames ids = g.entryNames ids := by
  unfold Graph.entryNames
  simp only [more.state]

theorem nameOfGroup_ok (ordered : GroupsInOrder g) {names : List EntryName} (inside : ∀ n ∈ names, n < g.nameCount) :
    MoreGroups g (g.nameOfGroup names).1 ∧ GroupsInOrder (g.nameOfGroup names).1 ∧
      StandsFor (g.nameOfGroup names).1 (g.nameOfGroup names).2 (ascending names) := by
  unfold nameOfGroup
  split
  · rename_i empty
    exact ⟨.refl g, ordered, empty⟩
  · rename_i single same
    have member : single ∈ names := by
      rw [← mem_ascending, same]
      exact List.mem_cons_self
    exact ⟨.refl g, ordered, .inl ⟨same, inside single member⟩⟩
  · split
    · rename_i group found
      have equal : group.members = ascending names := by
        simpa using Array.find?_some found
      obtain ⟨i, place⟩ := Array.getElem?_of_mem (Array.mem_of_find?_eq_some found)
      refine ⟨.refl g, ordered, .inr ⟨i, ?_, (ordered i group place).1⟩⟩
      rw [place, ← equal]
    · refine ⟨⟨rfl, rfl, rfl, fun i c known => ?_⟩, fun i c known => ?_, .inr ⟨g.groups.size, ?_, rfl⟩⟩
      · have lower := (Array.getElem?_eq_some_iff.mp known).1
        show (g.groups.push _)[i]? = some c
        rw [Array.getElem?_push, if_neg (Nat.ne_of_lt lower)]
        exact known
      · have pushed : (g.groups.push ⟨ascending names, g.nameCount + g.groups.size⟩)[i]? = some c := known
        rw [Array.getElem?_push] at pushed
        split at pushed
        · rename_i last
          obtain rfl := Option.some.inj pushed
          exact ⟨congrArg _ last.symm, fun n member => inside n (mem_ascending.mp member)⟩
        · exact ordered i c pushed
      · show (g.groups.push _)[g.groups.size]? = _
        rw [Array.getElem?_push, if_pos rfl]

/-! ### All names -/

/-- A graph with names for whatever can be entered from the opening states on. -/
structure Labelled (base g : Graph) : Prop where
  same : Relabelled base g
  known : ∀ (s : Nat) (n : EntryName), (g.state s).name = some n →
    (base.state s).hasMoves = true ∧ (g.state s).reported = base.kindAfter s ∧
      ∃ first, g.named[n]? = some first ∧ Alike base s first
  first : ∀ (n : EntryName) (r : StateId), g.named[n]? = some r → (g.state r).name = some n
  after : ∀ s : Nat, (g.state s).name.isSome = true → ∀ q ∈ base.listAfter s, (g.state q).name.isSome = true
  opening : ∀ q ∈ base.openingStates, (g.state q).name.isSome = true

theorem Labelled.moreGroups (labelled : Labelled base g) (more : MoreGroups g h) : Labelled base h := by
  have state := more.state
  refine ⟨⟨?_, more.initial.trans labelled.same.initial, fun s => ?_⟩, fun s n known => ?_, fun n r known => ?_,
    fun s known q member => ?_, fun q member => ?_⟩
  · exact (congrArg Array.size more.states).trans labelled.same.size
  · rw [state s]
    exact labelled.same.state s
  · rw [state s] at known ⊢
    rw [more.named]
    exact labelled.known s n known
  · rw [more.named] at known
    rw [state r]
    exact labelled.first n r known
  · rw [state s] at known
    rw [state q]
    exact labelled.after s known q member
  · rw [state q]
    exact labelled.opening q member

theorem Naming.listed (naming : Naming base ∅ ∅ g) {s : Nat} (known : (g.state s).name.isSome = true) {q : Nat}
    (member : q ∈ base.listAfter s) : (g.state q).name.isSome = true := by
  obtain ⟨n, named⟩ := Option.isSome_iff_exists.mp known
  obtain ⟨_, _, r, place, alike⟩ := naming.known s n named
  rw [alike.list] at member
  unfold listAfter at member
  cases goes : (base.state r).next with
  | none =>
    rw [goes] at member
    cases member
  | some m =>
    rw [goes] at member
    rcases naming.visited n r m place goes with bare | collected | pending
    · have member : q ∈ (base.state m).epsilon := member
      rw [bare] at member
      cases member
    · obtain ⟨names, list⟩ := Option.isSome_iff_exists.mp collected
      rcases naming.behind m names list with pending | ⟨_, all⟩
      · exact absurd pending (Set.notMem_empty m)
      · exact all q member
    · exact absurd pending (Set.notMem_empty m)

theorem visits_namesBehind (nameable : Nameable base) :
    Visits base asked (base.size + 1) fun g id => (g.namesBehind id).1 := by
  intro g promised m naming few done
  unfold Graph.namesBehind
  dsimp only
  rw [naming.same.size]
  obtain ⟨after, further, collected, _⟩ := collectNames_ok nameable (base.size + 1) naming few done
  exact ⟨after, further, collected⟩

theorem nameFrom_ok (nameable : Nameable base) (id : Nat) (naming : Naming base asked promised g) :
    Naming base asked promised (g.nameFrom id) ∧ Further g (g.nameFrom id) ∧
      ((base.state id).hasMoves = true → ((g.nameFrom id).state id).name.isSome = true) := by
  have few : g.uncollected < base.size + 1 := by
    rw [← naming.same.size]
    exact Nat.lt_succ_of_le uncollected_le_size
  exact nameChain_ok nameable (visits_namesBehind nameable) id naming few

theorem nameOpening_ok (nameable : Nameable base) (ids : List Nat) (naming : Naming base asked promised g) :
    Naming base asked promised (ids.foldl nameFrom g) ∧ Further g (ids.foldl nameFrom g) ∧
      ∀ s ∈ ids, (base.state s).hasMoves = true → ((ids.foldl nameFrom g).state s).name.isSome = true := by
  induction ids generalizing g with
  | nil => exact ⟨naming, .refl g, fun s member => absurd member List.not_mem_nil⟩
  | cons s rest ih =>
    rw [List.foldl_cons]
    obtain ⟨step, further, named⟩ := nameFrom_ok nameable s naming
    obtain ⟨all, more, others⟩ := ih step
    refine ⟨all, further.trans more, fun t member moves => ?_⟩
    rcases List.mem_cons.mp member with rfl | later
    · exact more.isNamed (named moves)
    · exact others t later moves

theorem Labelled.name_lt (labelled : Labelled base g) {s : Nat} {n : EntryName} (known : (g.state s).name = some n) :
    n < g.nameCount := by
  obtain ⟨_, _, first, place, _⟩ := labelled.known s n known
  exact (Array.getElem?_eq_some_iff.mp place).1

/-- What naming comes to. Without opening states nothing is named. Otherwise the names are given out when those behind the
initial state have been collected, and these are the names of the opening set. -/
theorem nameAll_cases (nameable : Nameable base) :
    base.openingStates = [] ∧ base.nameAll = (base, none) ∨
      ∃ (initial : Nat) (g : Graph), base.initial = some initial ∧ base.openingStates = (base.state initial).epsilon ∧
        base.openingStates ≠ [] ∧ Naming base ∅ ∅ g ∧
        (∀ q ∈ base.openingStates, (g.state q).name.isSome = true) ∧
        (g.state initial).namesBehind = some (g.namesOf initial) ∧ base.nameAll = g.nameOfGroup (g.namesOf initial) := by
  cases start : base.initial with
  | none =>
    refine .inl ⟨?_, ?_⟩
    · unfold openingStates
      rw [start]
    · unfold nameAll
      rw [start]
  | some initial =>
    have opening : base.openingStates = (base.state initial).epsilon := by
      unfold openingStates
      rw [start]
    have done := nameable.opening initial start
    have unfolded : base.nameAll = if ((base.state initial).epsilon.foldl nameFrom base).nameCount = 0
        then ((base.state initial).epsilon.foldl nameFrom base, none)
        else ((((base.state initial).epsilon.foldl nameFrom base).nameFrom initial).namesBehind initial).1.nameOfGroup
          (((base.state initial).epsilon.foldl nameFrom base).nameFrom initial |>.namesBehind initial).2 := by
      unfold nameAll
      rw [start]
    rw [unfolded, opening]
    by_cases nothing : (base.state initial).epsilon = []
    · refine .inl ⟨nothing, ?_⟩
      rw [nothing, List.foldl_nil, nameCount, nameable.noNames.1]
      rfl
    refine .inr ⟨initial, ?_⟩
    obtain ⟨naming, _, named⟩ := nameOpening_ok nameable (base.state initial).epsilon nameable.naming
    generalize (base.state initial).epsilon.foldl nameFrom base = g at naming named
    have counts : g.nameCount ≠ 0 := by
      obtain ⟨q, member⟩ := List.exists_mem_of_ne_nil _ nothing
      obtain ⟨n, known⟩ := Option.isSome_iff_exists.mp (named q member (done.useful q member))
      exact Nat.ne_of_gt (Nat.zero_lt_of_lt (naming.name_lt known))
    rw [if_neg counts]
    obtain ⟨again, _, _⟩ := nameFrom_ok nameable initial naming
    obtain ⟨last, _, isSome, collected⟩ := collectNames_ok nameable ((g.nameFrom initial).size + 1) again
      (Nat.lt_succ_of_le uncollected_le_size) done
    obtain ⟨names, all⟩ := collected (Set.notMem_empty initial)
    unfold namesBehind
    generalize collectNames ((g.nameFrom initial).size + 1) (g.nameFrom initial) initial = found at last isSome names all
    obtain ⟨g, list⟩ := found
    dsimp only at last isSome names all ⊢
    obtain ⟨cached, known⟩ := Option.isSome_iff_exists.mp isSome
    obtain ⟨same, _⟩ := (last.behind initial cached known).resolve_left (Set.notMem_empty initial)
    exact ⟨g, rfl, rfl, nothing, last, all, by rw [known, same], by rw [names]⟩

/-- Naming gives every state that can be entered a name, and the opening states one name together. -/
theorem nameAll_labelled (nameable : Nameable base) :
    Labelled base base.nameAll.1 ∧ GroupsInOrder base.nameAll.1 ∧
      StandsFor base.nameAll.1 base.nameAll.2 (base.nameAll.1.entryNames base.openingStates) := by
  have finish : ∀ {g : Graph}, Naming base ∅ ∅ g → (∀ q ∈ base.openingStates, (g.state q).name.isSome = true) →
      Labelled base g := fun naming opening =>
    ⟨naming.same, naming.known, naming.first, fun s known q member => naming.listed known member, opening⟩
  have ordered : ∀ {g : Graph}, Naming base ∅ ∅ g → GroupsInOrder g := by
    intro g naming i c known
    rw [naming.groups] at known
    cases known
  rcases nameAll_cases nameable with ⟨nothing, result⟩ | ⟨initial, g, _, opening, _, naming, named, _, result⟩
  · rw [result, nothing]
    refine ⟨finish nameable.naming fun q member => ?_, ordered nameable.naming, rfl⟩
    rw [nothing] at member
    cases member
  have labelled := finish naming named
  obtain ⟨more, order, stands⟩ := nameOfGroup_ok (ordered naming) naming.namesOf_lt
  have listed : (g.nameOfGroup (g.namesOf initial)).1.entryNames base.openingStates = ascending (g.namesOf initial) := by
    rw [more.entryNames, opening, ← naming.same.epsilon]
    rfl
  rw [result]
  exact ⟨labelled.moreGroups more, order, by rw [listed]; exact stands⟩

/-- A graph is ready to be named once it is closed. -/
theorem Completed.nameable {built : Graph} {sem : Standing} (fresh : Fresh built) (completed : Completed built sem g) :
    Nameable g where
  unnamed := completed.unnamed
  noNames := completed.noNames
  goes s moves := next_of_hasMoves (completed.idle s) moves
  entered := completed.entered
  opening s same := by
    rw [completed.initial, fresh.initial] at same
    obtain rfl := Option.some.inj same
    exact completed.done 0 fresh.size_pos

end TokenTables.Automaton.Graph
