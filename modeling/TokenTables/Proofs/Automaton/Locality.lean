import Mathlib
import TokenTables.Proofs.Automaton.Sprouting

/-!
Building is local. However a builder ends, it has got there by steps that add a state, link a state without moves, or give
moves to one without links, always among the states it has added itself. What it adds therefore leads nowhere else, no
state gets both moves and epsilon moves, and a finished fragment is entered and left only by what is put around it.
-/

namespace TokenTables.Automaton

namespace Graph

variable {base g h : Graph} {source target s : Nat}

/-- What comes of a graph by steps of building, each about states that have been added. -/
inductive Raised (base : Graph) : Graph → Prop where
  | refl : Raised base base
  | addState {g : Graph} (before : Raised base g) : Raised base (g.addState {})
  | link {g : Graph} {source target : Nat} (before : Raised base g) (new : New base g.size source)
    (idle : (g.state source).moves = {}) (other : New base g.size target) : Raised base (g.linkEpsilon source target)
  | move {g : Graph} {source target : Nat} (before : Raised base g) (new : New base g.size source)
    (loose : (g.state source).epsilon = []) (other : New base g.size target) (more : Moves → Moves) :
    Raised base (g.alter source fun s => { s with moves := more s.moves, next := some target })

theorem Raised.sprouted (raised : Raised base g) : Sprouted base g := by
  induction raised with
  | refl => exact .refl
  | addState _ ih => exact ih.addState
  | link _ new _ other ih => exact ih.linkEpsilon new other
  | move _ new _ _ more ih => exact ih.addMoves new.1 more

theorem Raised.trans (one : Raised base g) (two : Raised g h) : Raised base h := by
  have low : base.size ≤ g.size := one.sprouted.size_le
  have wider : ∀ {size id : Nat}, New g size id → New base size id := fun new => ⟨low.trans new.1, new.2⟩
  induction two with
  | refl => exact one
  | addState _ ih => exact ih.addState
  | link _ new idle other ih => exact ih.link (wider new) idle (wider other)
  | move _ new loose other more ih => exact ih.move (wider new) loose (wider other) more

/-! ### What a step keeps -/

/-- The added states move to one another, and none of them has both moves and epsilon moves. -/
structure Confined (base g : Graph) : Prop where
  next : ∀ s : Nat, base.size ≤ s → ∀ t, (g.state s).next = some t → New base g.size t
  apart : ∀ s : Nat, base.size ≤ s → (g.state s).moves = {} ∨ (g.state s).epsilon = []

theorem confined_refl : Confined base base where
  next s beyond t goes := by
    rw [state_of_size_le beyond] at goes
    cases goes
  apart s beyond := by
    rw [state_of_size_le beyond]
    exact .inl rfl

theorem Confined.addState (confined : Confined base g) : Confined base (g.addState {}) where
  next s low t goes := by
    rw [state_addState] at goes
    rw [size_addState]
    split at goes
    · cases goes
    · exact (confined.next s low t goes).mono (Nat.le_succ _)
  apart s low := by
    rw [state_addState]
    split
    · exact .inl rfl
    · exact confined.apart s low

theorem Confined.link (confined : Confined base g) (idle : (g.state source).moves = {}) :
    Confined base (g.linkEpsilon source target) where
  next s low t goes := by
    rw [state_linkEpsilon_edges.2] at goes
    rw [size_linkEpsilon]
    exact confined.next s low t goes
  apart s low := by
    rw [state_linkEpsilon_edges.1]
    by_cases here : s = source
    · exact .inl (here ▸ idle)
    · rw [state_linkEpsilon_other here]
      exact confined.apart s low

theorem Confined.move (confined : Confined base g) (inside : source < g.size) (loose : (g.state source).epsilon = [])
    (other : New base g.size target) (more : Moves → Moves) :
    Confined base (g.alter source fun s => { s with moves := more s.moves, next := some target }) where
  next s low t goes := by
    rw [size_alter]
    by_cases here : s = source
    · rw [here, state_alter_same inside] at goes
      obtain rfl := Option.some.inj goes
      exact other
    · rw [state_alter_other here] at goes
      exact confined.next s low t goes
  apart s low := by
    by_cases here : s = source
    · rw [here, state_alter_same inside]
      exact .inr loose
    · rw [state_alter_other here]
      exact confined.apart s low

theorem Raised.confined (raised : Raised base g) : Confined base g := by
  induction raised with
  | refl => exact confined_refl
  | addState _ ih => exact ih.addState
  | link _ new idle _ ih => exact ih.link idle
  | move _ new loose other more ih => exact ih.move new.2 loose other more

/-! ### What builders rely on -/

/-- The states that were there have kept their moves. -/
structure KeepsMoves (g h : Graph) : Prop where
  size_le : g.size ≤ h.size
  moves : ∀ s : Nat, s < g.size → (h.state s).moves = (g.state s).moves

/-- What holds of a graph as long as its states keep their moves. -/
def Stable (Q : Graph → Prop) : Prop := ∀ g h, KeepsMoves g h → Q g → Q h

theorem keepsMoves_link : KeepsMoves g (g.linkEpsilon source target) :=
  ⟨by simp, fun _ _ => state_linkEpsilon_edges.1⟩

theorem keepsMoves_addState : KeepsMoves g (g.addState {}) where
  size_le := by simp
  moves s inside := by rw [state_addState, if_neg (Nat.ne_of_lt inside)]

theorem Raised.keepsMoves (raised : Raised g h) : KeepsMoves g h where
  size_le := raised.sprouted.size_le
  moves s inside := by rw [raised.sprouted.kept s inside]

/-- An added state without moves. -/
structure AtRest (base g : Graph) (s : Nat) : Prop where
  new : New base g.size s
  idle : (g.state s).moves = {}

/-- A fragment between added states that can be gone on from. -/
structure Joinable (base g : Graph) (f : Fragment) : Prop where
  start : New base g.size f.start
  stop : AtRest base g f.stop

theorem stable_new : Stable fun g => New base g.size s := fun _ _ keeps new => new.mono keeps.size_le

theorem stable_atRest : Stable fun g => AtRest base g s := fun _ _ keeps rests =>
  ⟨rests.new.mono keeps.size_le, (keeps.moves s rests.new.2).trans rests.idle⟩

theorem stable_joinable {f : Fragment} : Stable fun g => Joinable base g f := fun g h keeps joinable =>
  ⟨stable_new g h keeps joinable.start, stable_atRest g h keeps joinable.stop⟩

theorem Stable.and {P Q : Graph → Prop} (one : Stable P) (two : Stable Q) : Stable fun g => P g ∧ Q g :=
  fun g h keeps both => ⟨one g h keeps both.1, two g h keeps both.2⟩

end Graph

namespace Build

open TokenTables.Automaton.Graph

variable {α β : Type} {base : Graph} {settings : BuildSettings} {Q : Graph → Prop}

/-- A builder that begins where `Q` holds only takes steps, also if it stops at a fault, and `P` holds of what it returns
and of the graph then. -/
def Raises (base : Graph) (Q : Graph → Prop) (p : Build α) (P : α → Graph → Prop) : Prop :=
  ∀ c, Raised base c.graph → Q c.graph →
    (∃ a after, p c = .ok a after ∧ Raised base after.graph ∧ P a after.graph) ∨
    ∃ fault after, p c = .error fault after ∧ Raised base after.graph

theorem Raises.bind {p : Build α} {f : α → Build β} {P : α → Graph → Prop} {R : β → Graph → Prop}
    (first : Raises base Q p P) (rest : ∀ a, Raises base (P a) (f a) R) : Raises base Q (p >>= f) R := by
  intro c raised holds
  show (∃ b after, EStateM.bind p f c = .ok b after ∧ _) ∨ ∃ fault after, EStateM.bind p f c = .error fault after ∧ _
  unfold EStateM.bind
  rcases first c raised holds with ⟨a, between, run, raisedThen, holdsThen⟩ | ⟨fault, between, run, raisedThen⟩
  · rw [run]
    exact rest a between raisedThen holdsThen
  · rw [run]
    exact .inr ⟨fault, between, rfl, raisedThen⟩

theorem Raises.mono {p : Build α} {P R : α → Graph → Prop} (raises : Raises base Q p P) (implies : ∀ a g, P a g → R a g) :
    Raises base Q p R := by
  intro c raised holds
  rcases raises c raised holds with ⟨a, after, run, raisedThen, holdsThen⟩ | failed
  · exact .inl ⟨a, after, run, raisedThen, implies a _ holdsThen⟩
  · exact .inr failed

theorem Raises.startingWith {p : Build α} {P : α → Graph → Prop} {R : Graph → Prop} (raises : Raises base Q p P)
    (implies : ∀ g, R g → Q g) : Raises base R p P := fun c raised holds => raises c raised (implies _ holds)

theorem raises_pure {a : α} {P : α → Graph → Prop} (holds : ∀ g, Q g → P a g) : Raises base Q (pure a) P :=
  fun c raised before => .inl ⟨a, c, rfl, raised, holds _ before⟩

theorem raises_throw {fault : RegexFault} {P : α → Graph → Prop} : Raises base Q (throw fault) P :=
  fun c raised _ => .inr ⟨fault, c, rfl, raised⟩

theorem raises_throw_bind {fault : RegexFault} {f : α → Build β} {P : β → Graph → Prop} :
    Raises base Q (throw fault >>= f) P :=
  (raises_throw (P := fun _ _ => False)).bind fun _ _ _ impossible => impossible.elim

theorem raises_addState {P : StateId → Graph → Prop} (holds : ∀ g, Raised base g → Q g → P g.size (g.addState {})) :
    Raises base Q addState P :=
  fun c raised before => .inl ⟨c.graph.size, _, rfl, raised.addState, holds _ raised before⟩

theorem raises_atRest (stable : Stable Q) : Raises base Q addState fun id g => Q g ∧ AtRest base g id := by
  refine raises_addState fun g raised holds => ⟨stable _ _ keepsMoves_addState holds, ⟨?_, by simp⟩, by simp⟩
  exact raised.sprouted.size_le

theorem raises_link {source target : StateId} (stable : Stable Q)
    (ready : ∀ g, Q g → AtRest base g source ∧ New base g.size target) :
    Raises base Q (linkEpsilon source target) fun _ => Q := by
  intro c raised holds
  obtain ⟨here, there⟩ := ready c.graph holds
  exact .inl ⟨(), _, rfl, raised.link here.new here.idle there, stable _ _ keepsMoves_link holds⟩

theorem raises_move {source target : StateId} {more : Moves → Moves} {P : Graph → Prop}
    (ready : ∀ g, Q g → New base g.size source ∧ (g.state source).epsilon = [] ∧ New base g.size target)
    (holds : ∀ g, Q g → P (g.alter source fun s => { s with moves := more s.moves, next := some target })) :
    Raises base Q (addMoves source target more) fun _ => P := by
  intro c raised before
  obtain ⟨new, loose, other⟩ := ready c.graph before
  exact .inl ⟨(), _, rfl, raised.move new loose other more, holds _ before⟩

theorem raises_foldlM {f : β → α → Build β} {I : β → Graph → Prop} {xs : List α} {b : β} (begins : ∀ g, Q g → I b g)
    (each : ∀ b, ∀ a ∈ xs, Raises base (I b) (f b a) I) : Raises base Q (xs.foldlM f b) I := by
  induction xs generalizing b Q with
  | nil => exact raises_pure begins
  | cons a rest ih =>
    rw [List.foldlM_cons]
    have first : Raises base Q (f b a) I := fun c raised holds =>
      each b a List.mem_cons_self c raised (begins _ holds)
    exact first.bind fun next => ih (fun _ holds => holds) fun b' a' member => each b' a' (List.mem_cons_of_mem _ member)

theorem raises_forM {f : α → Build Unit} {xs : List α} (each : ∀ a ∈ xs, Raises base Q (f a) fun _ => Q) :
    Raises base Q (xs.forM f) fun _ => Q := by
  induction xs with
  | nil => exact raises_pure fun _ holds => holds
  | cons a rest ih =>
    exact (each a List.mem_cons_self).bind fun _ => ih fun b member => each b (List.mem_cons_of_mem _ member)

/-! ### Checks -/

theorem raises_admitChar {loc : Location} {w : Char} : Raises base Q (admitChar settings loc w) fun _ => Q := by
  unfold admitChar
  split
  · exact raises_throw
  · split
    · exact fun c raised holds => .inl ⟨(), _, rfl, raised, holds⟩
    · exact raises_pure fun _ holds => holds

theorem raises_admitItem {loc : Location} {item : ClassPart} :
    Raises base Q (admitItem settings loc item) fun _ => Q := by
  unfold admitItem
  split
  · exact raises_throw_bind
  · exact raises_admitChar

theorem raises_admittedRanges {loc : Location} {cls : CharClass} :
    Raises base Q (admittedRanges settings loc cls) fun _ => Q :=
  (raises_forM fun _ _ => raises_admitItem).bind fun _ => raises_pure fun _ holds => holds

theorem raises_gatherChars {alternatives : List Regex} : Raises base Q (gatherChars settings alternatives) fun _ => Q := by
  rw [gatherChars_eq]
  refine (raises_foldlM (I := fun _ => Q) (fun _ holds => holds) fun gathered r _ => ?_).bind fun _ =>
    raises_pure fun _ holds => holds
  unfold gatherOne
  cases singleChars? r with
  | none => exact raises_pure fun _ holds => holds
  | some cls =>
    refine raises_admittedRanges.bind fun _ => ?_
    cases gathered.2 <;> exact raises_pure fun _ holds => holds

/-! ### Fragments -/

/-- The builder raises a joinable fragment wherever it is used, and what holds as long as moves are kept still holds. -/
def RaisesFragment (p : Build Fragment) : Prop :=
  ∀ base Q, Stable Q → Raises base Q p fun f g => Q g ∧ Joinable base g f

theorem raisesFragment_of_own {p : Build Fragment} (own : ∀ base, Raises base (· = base) p fun f g => Joinable base g f) :
    RaisesFragment p := by
  intro base Q stable c raised holds
  -- Its steps follow those that have been taken before; so what is new to it is new there as well.
  rcases own c.graph c .refl rfl with ⟨f, after, run, steps, joinable⟩ | ⟨fault, after, run, steps⟩
  · have low := raised.sprouted.size_le
    refine .inl ⟨f, after, run, raised.trans steps, stable _ _ steps.keepsMoves holds, ?_, ?_, joinable.stop.idle⟩
    · exact ⟨low.trans joinable.start.1, joinable.start.2⟩
    · exact ⟨low.trans joinable.stop.new.1, joinable.stop.new.2⟩
  · exact .inr ⟨fault, after, run, raised.trans steps⟩

theorem stable_true : Stable fun _ => True := fun _ _ _ _ => trivial

theorem raises_nothing : RaisesFragment nothing := fun _ _ stable =>
  (raises_atRest stable).bind fun _ => raises_pure fun _ both => ⟨both.1, both.2.new, both.2⟩

/-- A chain of added states from `first`, which a blank state ends so far. -/
structure Chained (base g : Graph) (first current : StateId) : Prop where
  begins : New base g.size first
  ends : New base g.size current
  blank : g.state current = {}

theorem raises_begin : Raises base (· = base) addState fun first g => Chained base g first first := by
  refine raises_addState fun g _ same => ?_
  subst same
  have new : New g (g.addState {}).size g.size := ⟨Nat.le_refl _, by simp⟩
  exact ⟨new, new, by simp⟩

theorem raises_further {first current : StateId} {more : Moves → Moves} {result : StateId → α}
    {P : α → Graph → Prop} (holds : ∀ next g, Chained base g first next → P (result next) g) :
    Raises base (Chained base · first current) (do
      let next ← addState
      addMoves current next more
      return result next) P := by
  refine (raises_addState (P := fun next g => Chained base g first current ∧ Chained base g first next ∧ next ≠ current)
    fun g _ chained => ?_).bind fun next => ?_
  · obtain ⟨begins, ends, blank⟩ := chained
    have apart : current ≠ g.size := Nat.ne_of_lt ends.2
    have longer : g.size ≤ (g.addState {}).size := by simp
    refine ⟨⟨begins.mono longer, ends.mono longer, ?_⟩, ⟨begins.mono longer, ⟨?_, by simp⟩, by simp⟩, apart.symm⟩
    · rw [state_addState, if_neg apart, blank]
    · exact ends.1.trans (Nat.le_of_lt ends.2)
  · refine (raises_move (P := fun g => Chained base g first next) (fun g both => ?_) fun g both => ?_).bind fun _ =>
      raises_pure fun g chained => holds next g chained
    · exact ⟨both.1.ends, by rw [both.1.blank], both.2.1.ends⟩
    · obtain ⟨_, ⟨begins, ends, blank⟩, apart⟩ := both
      refine ⟨by simpa using begins, by simpa using ends, ?_⟩
      rw [state_alter_other apart, blank]

theorem Chained.joinable {first last : StateId} {g : Graph} (chained : Chained base g first last) :
    Joinable base g ⟨first, last⟩ :=
  ⟨chained.begins, chained.ends, by rw [chained.blank]⟩

theorem raises_text {loc : Location} {chars : List Char} : RaisesFragment (text settings loc chars) := by
  refine raisesFragment_of_own fun base => ?_
  refine (raises_forM fun _ _ => raises_admitChar).bind fun _ => raises_begin.bind fun first => ?_
  refine (raises_foldlM (I := fun last g => Chained base g first last) (fun _ chained => chained)
    fun current _ _ => raises_further fun _ _ chained => chained).bind fun last => raises_pure fun _ chained => chained.joinable

theorem raises_oneChar {ranges : List Text.CodeRange} : RaisesFragment (oneChar ranges) :=
  raisesFragment_of_own fun _ => raises_begin.bind fun _ => raises_further fun _ _ chained => chained.joinable

/-! ### Fragments from fragments -/

/-- What has been joined so far can be gone on from, if anything has. -/
def JoinableIfAny (base g : Graph) (joined : Option Fragment) : Prop := ∀ f ∈ joined, Joinable base g f

theorem stable_joinableIfAny {joined : Option Fragment} : Stable fun g => JoinableIfAny base g joined :=
  fun g h keeps joinable f member => stable_joinable g h keeps (joinable f member)

theorem joinableIfAny_none {g : Graph} : JoinableIfAny base g none := fun _ member => nomatch member

theorem raises_join (stable : Stable Q) {before : Option Fragment} {next : Fragment} :
    Raises base (fun g => (Q g ∧ JoinableIfAny base g before) ∧ Joinable base g next) (join before next)
      fun joined g => Q g ∧ JoinableIfAny base g joined := by
  cases before with
  | none =>
    refine raises_pure fun g both => ⟨both.1.1, fun f member => ?_⟩
    obtain rfl := Option.some.inj member
    exact both.2
  | some earlier =>
    refine (raises_link ((stable.and stable_joinableIfAny).and stable_joinable) fun g both => ?_).bind fun _ =>
      raises_pure fun g both => ⟨both.1.1, fun f member => ?_⟩
    · exact ⟨(both.1.2 earlier rfl).stop, both.2.start⟩
    · obtain rfl := Option.some.inj member
      exact ⟨(both.1.2 earlier rfl).start, both.2.stop⟩

theorem raises_orNothing (stable : Stable Q) {joined : Option Fragment} :
    Raises base (fun g => Q g ∧ JoinableIfAny base g joined) (orNothing joined) fun f g => Q g ∧ Joinable base g f := by
  cases joined with
  | none =>
    intro c raised both
    exact raises_nothing base Q stable c raised both.1
  | some f => exact raises_pure fun g both => ⟨both.1, both.2 f rfl⟩

theorem raises_inTurn {parts : List (Build Fragment)} (each : ∀ p ∈ parts, RaisesFragment p) :
    RaisesFragment (inTurn parts) := by
  intro base Q stable
  refine (raises_foldlM (I := fun joined g => Q g ∧ JoinableIfAny base g joined) (fun g holds => ⟨holds, joinableIfAny_none⟩)
    fun before p member => ?_).bind fun joined => raises_orNothing stable
  exact (each p member base _ (stable.and stable_joinableIfAny)).bind fun _ => raises_join stable

theorem raises_copies (stable : Stable Q) {part : Build Fragment} (raises : RaisesFragment part) {count : Nat}
    {before : Option Fragment} : Raises base (fun g => Q g ∧ JoinableIfAny base g before) (copies part count before)
      fun joined g => Q g ∧ JoinableIfAny base g joined := by
  induction count generalizing before with
  | zero => exact raises_pure fun _ both => both
  | succ count ih =>
    exact (raises base _ (stable.and stable_joinableIfAny)).bind fun _ => (raises_join stable).bind fun _ => ih

theorem raises_firstCopies (stable : Stable Q) {part : Build Fragment} (raises : RaisesFragment part) {count : Nat} :
    Raises base Q (copies part count none) fun joined g => Q g ∧ JoinableIfAny base g joined :=
  (raises_copies stable raises).startingWith fun _ holds => ⟨holds, joinableIfAny_none⟩

theorem raises_oneOf {parts : List (Build Fragment)} (each : ∀ p ∈ parts, RaisesFragment p) :
    RaisesFragment (oneOf parts) := by
  unfold oneOf
  split
  · exact each _ (by simp)
  intro base Q stable
  refine (raises_atRest stable).bind fun start => (raises_atRest (stable.and stable_atRest)).bind fun stop => ?_
  have stableAll : Stable fun g => (Q g ∧ AtRest base g start) ∧ AtRest base g stop :=
    (stable.and stable_atRest).and stable_atRest
  -- A link takes nothing from the start and the stop, so each part finds them as the first one did.
  refine (raises_forM fun p member => ?_).bind fun _ => raises_pure fun g all => ⟨all.1.1, all.1.2.new, all.2⟩
  refine (each p member base _ stableAll).bind fun f => ?_
  refine (raises_link (stableAll.and stable_joinable) fun g both => ⟨both.1.1.2, both.2.start⟩).bind fun _ => ?_
  refine (raises_link (stableAll.and stable_joinable) fun g both => ⟨both.2.stop, both.1.2.new⟩).mono fun _ _ both => both.1

theorem raises_optional {condition : Bool} {p : Build Unit} {rest : Unit → Build β} {P : β → Graph → Prop}
    (step : Raises base Q p fun _ => Q) (later : ∀ u, Raises base Q (rest u) P) :
    Raises base Q (if condition then p >>= rest else rest ()) P := by
  cases condition with
  | true => exact step.bind later
  | false => exact later ()

theorem raises_around {skippable repeatable : Bool} {body : Build Fragment} (raises : RaisesFragment body) :
    RaisesFragment (around skippable repeatable body) := by
  intro base Q stable
  refine (raises_atRest stable).bind fun start => (raises_atRest (stable.and stable_atRest)).bind fun stop => ?_
  have stableBoth : Stable fun g => (Q g ∧ AtRest base g start) ∧ AtRest base g stop :=
    (stable.and stable_atRest).and stable_atRest
  refine (raises base _ stableBoth).bind fun f => ?_
  have stableAll : Stable fun g => ((Q g ∧ AtRest base g start) ∧ AtRest base g stop) ∧ Joinable base g f :=
    stableBoth.and stable_joinable
  refine (raises_link stableAll fun g all => ⟨all.1.1.2, all.2.start⟩).bind fun _ => ?_
  refine raises_optional (raises_link stableAll fun g all => ⟨all.1.1.2, all.1.2.new⟩) fun _ => ?_
  refine (raises_link stableAll fun g all => ⟨all.2.stop, all.1.2.new⟩).bind fun _ => ?_
  refine raises_optional (raises_link stableAll fun g all => ⟨all.2.stop, all.2.start⟩) fun _ => ?_
  exact raises_pure fun g all => ⟨all.1.1.1, all.1.1.2.new, all.1.2⟩

theorem raises_repeated {body : Build Fragment} (raises : RaisesFragment body) (least : Nat) (most : Option Nat) :
    RaisesFragment (repeated body least most) := by
  unfold repeated
  split
  · exact raises_around raises
  · exact raises_around raises
  · exact raises_around raises
  · intro base Q stable
    refine (raises_firstCopies stable raises).bind fun joined => ?_
    exact (raises_around raises base _ (stable.and stable_joinableIfAny)).bind fun _ =>
      (raises_join stable).bind fun _ => raises_orNothing stable
  · intro base Q stable
    refine (raises_firstCopies stable raises).bind fun joined => ?_
    exact (raises_copies stable (raises_around raises)).bind fun _ => raises_orNothing stable

/-- Building an expression only takes steps, whatever it comes to, and ends with a joinable fragment if it comes through. -/
theorem raises_expression (depth : Nat) (active : List String) (r : Regex) :
    RaisesFragment (expression settings depth active r) := by
  induction depth generalizing active r with
  | zero => exact fun _ _ _ => raises_throw
  | succ depth ih =>
    cases r with
    | literal loc written => exact raises_text
    | charClass loc cls =>
      intro base Q stable
      exact raises_admittedRanges.bind fun _ => raises_oneChar base Q stable
    | sequence loc parts =>
      refine raises_inTurn fun p member => ?_
      obtain ⟨s, _, rfl⟩ := List.mem_map.mp member
      exact ih active s
    | choice loc alternatives =>
      intro base Q stable
      unfold expression
      cases spliceChoices settings.definitions active [] alternatives with
      | error fault => exact raises_throw_bind
      | ok all =>
        refine (raises_pure (P := fun _ => Q) fun _ holds => holds).bind fun _ => raises_gatherChars.bind fun gathered => ?_
        refine raises_oneOf (fun p member => ?_) base Q stable
        obtain ⟨part, _, rfl⟩ := List.mem_map.mp member
        cases part with
        | chars => exact raises_oneChar
        | other s => exact ih active s
    | repetition loc body least most =>
      intro base Q stable
      unfold expression
      dsimp only
      split
      · exact raises_throw_bind
      · exact raises_repeated (ih active body) least most base Q stable
    | reference loc label =>
      intro base Q stable
      unfold expression
      cases settings.definitions.lookup label with
      | none => exact raises_throw
      | some body =>
        dsimp only
        split
        · exact raises_throw
        · exact ih _ body base Q stable

end Build

/-! ### What building leaves of a graph -/

namespace Graph

/-- An edge between two states: on characters, or an epsilon move. -/
def Edge (g : Graph) (s t : Nat) : Prop := (g.state s).next = some t ∨ t ∈ (g.state s).epsilon

/-- Edges lead to states of the graph, and no state has both moves and epsilon moves. -/
structure Regular (g : Graph) : Prop where
  inside : ∀ s t, g.Edge s t → t < g.size
  apart : ∀ s, (g.state s).hasMoves = true → (g.state s).epsilon = []

/-- A regular graph to which states have been added: the earlier ones are as they were, and no new edge leads into them or
out of them. -/
structure Beside (before after : Graph) : Prop where
  size_le : before.size ≤ after.size
  kept : ∀ s < before.size, after.state s = before.state s
  frame : { after with states := #[] } = { before with states := #[] }
  separate : ∀ s t : Nat, after.Edge s t → s < before.size ∨ t < before.size → before.Edge s t
  regular : after.Regular

/-- The fragment lies in the new states. Nothing leads out of its stop yet, and nothing to its start. -/
structure Detached (before after : Graph) (f : Fragment) : Prop where
  start : New before after.size f.start
  stop : New before after.size f.stop
  halts : (after.state f.stop).moves = {} ∧ (after.state f.stop).next = none ∧ (after.state f.stop).epsilon = []
  unentered : ∀ s, ¬after.Edge s f.start

variable {base g : Graph}

theorem Raised.beside (raised : Raised base g) (regular : base.Regular) : Beside base g := by
  have sprouted := raised.sprouted
  have confined := raised.confined
  have newEdge : ∀ s t, base.size ≤ s → g.Edge s t → New base g.size t := by
    rintro s t beyond (goes | linked)
    · exact confined.next s beyond t goes
    · exact sprouted.among s beyond t linked
  have oldEdge : ∀ s t, s < base.size → g.Edge s t → base.Edge s t := by
    intro s t old edge
    rwa [Edge, sprouted.kept s old] at edge
  refine ⟨sprouted.size_le, sprouted.kept, sprouted.frame, fun s t edge either => ?_, fun s t edge => ?_,
    fun s reading => ?_⟩
  · rcases Nat.lt_or_ge s base.size with old | beyond
    · exact oldEdge s t old edge
    · have new := (newEdge s t beyond edge).1
      omega
  · rcases Nat.lt_or_ge s base.size with old | beyond
    · exact Nat.lt_of_lt_of_le (regular.inside s t (oldEdge s t old edge)) sprouted.size_le
    · exact (newEdge s t beyond edge).2
  · rcases Nat.lt_or_ge s base.size with old | beyond
    · rw [sprouted.kept s old] at reading ⊢
      exact regular.apart s reading
    · rcases confined.apart s beyond with still | loose
      · rw [State.hasMoves, still] at reading
        cases reading
      · exact loose

theorem Constructed.detached {stop : Nat} {texts : Language Char} (made : Constructed base g stop texts)
    (regular : base.Regular) : Detached base g ⟨base.size, stop⟩ := by
  have enclosed := made.shape.enclosed
  have bounds := made.stop_bounds
  refine ⟨⟨Nat.le_refl _, bounds.1.trans_lt bounds.2⟩, bounds, ⟨?_, enclosed.stop_next, made.loose⟩, fun s edge => ?_⟩
  · exact enclosed.idle stop bounds.1 bounds.2 enclosed.stop_next
  rcases Nat.lt_or_ge s base.size with old | beyond
  · rw [Edge, made.grown.kept s old] at edge
    exact absurd (regular.inside s _ edge) (Nat.lt_irrefl _)
  rcases Nat.lt_or_ge s g.size with high | missing
  · rcases edge with goes | linked
    · have forward : base.size = s + 1 := (enclosed.next s beyond high _ goes).1
      omega
    · by_cases last : s = stop
      · rw [last, made.loose] at linked
        cases linked
      · exact absurd (enclosed.epsilon s beyond high last _ linked).1 (Nat.lt_irrefl _)
  · rw [Edge, state_of_size_le missing] at edge
    rcases edge with goes | linked
    · cases goes
    · cases linked

/-- Building is local, and what it builds is well formed. Whatever becomes of an expression, also at a fault in the middle
of it, what there was stays as it was and apart from the new states. A fragment begins and ends in new states, and nothing
is put to its start or its stop from outside yet. -/
theorem building_local (settings : BuildSettings) (r : Regex) (c : Construction) (regular : c.graph.Regular) :
    (∀ depth active,
      (∃ f after, (Build.expression settings depth active r).run c = .ok f after ∧ Beside c.graph after.graph ∧
        Detached c.graph after.graph f) ∨
      ∃ fault after, (Build.expression settings depth active r).run c = .error fault after ∧
        Beside c.graph after.graph) ∧
    Beside c.graph (c.graph.build settings r).graph ∧
    ∀ f, (c.graph.build settings r).outcome = .ok f → Detached c.graph (c.graph.build settings r).graph f := by
  have detached : ∀ depth active c' f after, c'.graph.Regular →
      (Build.expression settings depth active r).run c' = .ok f after → Detached c'.graph after.graph f := by
    intro depth active c' f after regular' run
    obtain ⟨begins, made⟩ := Build.expression_makes depth active r c' f after run
    have placed := made.detached regular'
    rwa [← begins] at placed
  have takesSteps := fun depth active =>
    @Build.raises_expression settings depth active r c.graph (fun _ => True) Build.stable_true
  refine ⟨fun depth active => ?_, ?_, fun f ok => ?_⟩
  · rcases takesSteps depth active c .refl trivial with ⟨f, after, run, raised, _⟩ | ⟨fault, after, run, raised⟩
    · exact .inl ⟨f, after, run, raised.beside regular, detached depth active c f after regular run⟩
    · exact .inr ⟨fault, after, run, raised.beside regular⟩
  · rw [build]
    rcases takesSteps (depthBound settings.definitions r) [] { graph := c.graph } .refl trivial with
      ⟨f, after, run, raised, _⟩ | ⟨fault, after, run, raised⟩
    · rw [show (Build.expression settings _ [] r).run { graph := c.graph } = _ from run]
      exact raised.beside regular
    · rw [show (Build.expression settings _ [] r).run { graph := c.graph } = _ from run]
      exact raised.beside regular
  · rw [build] at ok ⊢
    split at ok
    · rename_i made after run
      obtain rfl := Except.ok.inj ok
      exact detached _ _ { graph := c.graph } _ _ regular run
    · cases ok

/-- Two states, an epsilon move between them. -/
def linkedPair : Graph := { states := #[{ epsilon := [1] }, {}] }

/-- A letter, then a reference. -/
def letterThen (label : String) : Regex := .sequence .unknown [.literal .unknown "a", .reference .unknown label]

/-- One definition, for a second letter. -/
def secondLetter : BuildSettings := ⟨[("B", .literal .unknown "b")], false, false⟩

/-- Two letters are built beside the pair. A letter that is built before a missing reference stops the rest stays there. -/
theorem two_letters_local :
    linkedPair.Regular ∧
    (linkedPair.build secondLetter (letterThen "B")).outcome = .ok ⟨2, 5⟩ ∧
    Detached linkedPair (linkedPair.build secondLetter (letterThen "B")).graph ⟨2, 5⟩ ∧
    (linkedPair.build secondLetter (letterThen "C")).outcome = .error (.unknownReference "C" .unknown) ∧
    (linkedPair.build secondLetter (letterThen "C")).graph.size = 4 ∧
    Beside linkedPair (linkedPair.build secondLetter (letterThen "C")).graph := by
  have regular : linkedPair.Regular := by
    have states : ∀ s : Nat, s ≠ 0 → linkedPair.state s = {} := by
      rintro (_ | _ | s) other
      · exact absurd rfl other
      · rfl
      · exact state_of_size_le (by simp [linkedPair, size])
    refine ⟨fun s t edge => ?_, fun s reading => ?_⟩
    all_goals by_cases first : s = 0
    · subst first
      rcases edge with goes | linked
      · cases goes
      · obtain rfl := List.mem_singleton.mp linked
        decide
    · rw [Edge, states s first] at edge
      rcases edge with goes | linked
      · cases goes
      · cases linked
    · subst first
      cases reading
    · rw [states s first]
  have local₁ := building_local secondLetter (letterThen "B") { graph := linkedPair } regular
  have local₂ := building_local secondLetter (letterThen "C") { graph := linkedPair } regular
  have ok : (linkedPair.build secondLetter (letterThen "B")).outcome = .ok ⟨2, 5⟩ := by cbv
  refine ⟨regular, ok, local₁.2.2 _ ok, ?_, ?_, local₂.2.1⟩
  · cbv
  · cbv

end Graph

end TokenTables.Automaton
