import TokenTables.Proofs.Automaton.Rules

/-!
Building the same expression on two graphs. The states added are the same but for their places, so a fragment does not
depend on what has been built before it.
-/

namespace TokenTables

namespace Automaton

namespace Graph

/-- The second graph has the states of the first one but the initial one, at other places and in the same order. What is
added to both from now on follows the states that are there. -/
structure Copied (place : Nat → Nat) (g h : Graph) : Prop where
  keeps : StrictMono place
  zero : place 0 = 0
  size_pos : 0 < g.size
  size_le : g.size ≤ h.size
  beyond : ∀ s : Nat, g.size ≤ s → place s = s + (h.size - g.size)
  state : ∀ s : Nat, 0 < s → h.state (place s) = (g.state s).relocated place

variable {g h : Graph} {place : Nat → Nat}

theorem Copied.place_size (copied : Copied place g h) : place g.size = h.size := by
  have last := copied.beyond g.size (Nat.le_refl _)
  have le := copied.size_le
  omega

theorem Copied.place_lt (copied : Copied place g h) {s : Nat} : place s < h.size ↔ s < g.size := by
  rw [← copied.place_size]
  exact copied.keeps.lt_iff_lt

theorem Copied.addState (copied : Copied place g h) : Copied place (g.addState {}) (h.addState {}) where
  keeps := copied.keeps
  zero := copied.zero
  size_pos := by
    rw [size_addState]
    exact Nat.succ_pos _
  size_le := by
    rw [size_addState, size_addState]
    exact Nat.succ_le_succ copied.size_le
  beyond s late := by
    rw [size_addState] at late
    rw [size_addState, size_addState, copied.beyond s (by omega)]
    omega
  state s positive := by
    have same : place s = h.size ↔ s = g.size := by
      rw [← copied.place_size]
      exact copied.keeps.injective.eq_iff
    rw [state_addState, state_addState]
    by_cases new : s = g.size
    · rw [if_pos new, if_pos (same.mpr new)]
      rfl
    · rw [if_neg new, if_neg (mt same.mp new)]
      exact copied.state s positive

theorem Copied.alter (copied : Copied place g h) {id : Nat} (positive : 0 < id) {change changeOther : State → State}
    (alike : ∀ s, changeOther (s.relocated place) = (change s).relocated place) :
    Copied place (g.alter id change) (h.alter (place id) changeOther) where
  keeps := copied.keeps
  zero := copied.zero
  size_pos := by
    rw [size_alter]
    exact copied.size_pos
  size_le := by
    rw [size_alter, size_alter]
    exact copied.size_le
  beyond := by
    rw [size_alter, size_alter]
    exact copied.beyond
  state s positiveS := by
    have same : (place s = place id ∧ place id < h.size) ↔ (s = id ∧ id < g.size) :=
      and_congr copied.keeps.injective.eq_iff copied.place_lt
    rw [state_alter, state_alter]
    by_cases here : s = id ∧ id < g.size
    · rw [if_pos here, if_pos (same.mpr here), copied.state id positive]
      exact alike _
    · rw [if_neg here, if_neg (mt same.mp here)]
      exact copied.state s positiveS

theorem Copied.linkEpsilon (copied : Copied place g h) {source : Nat} (positive : 0 < source) (target : Nat) :
    Copied place (g.linkEpsilon source target) (h.linkEpsilon (place source) (place target)) :=
  copied.alter positive fun s => congrArg (fun list => { s.relocated place with epsilon := list })
    (insertNat_map copied.keeps target s.epsilon)

theorem Copied.acceptAt (copied : Copied place g h) {id : Nat} (positive : 0 < id) (kind : Kind) :
    Copied place (g.acceptAt id kind) (h.acceptAt (place id) kind) :=
  copied.alter positive fun _ => rfl

end Graph

namespace Build

open TokenTables.Automaton.Graph
open Text (CodeRange)

variable {α β γ δ : Type} {place : Nat → Nat}

/-! ### Two builders side by side -/

/-- Two builders under which a graph stays copied, with results that correspond if both come through. -/
def Tracks (place : Nat → Nat) (alike : α → β → Prop) (p : Build α) (q : Build β) : Prop :=
  ∀ c d a b c' d', Copied place c.graph d.graph → p c = .ok a c' → q d = .ok b d' →
    alike a b ∧ Copied place c'.graph d'.graph

/-- The same fragment at other places. -/
structure Moved (place : Nat → Nat) (f other : Fragment) : Prop where
  start : other.start = place f.start
  stop : other.stop = place f.stop
  start_pos : 0 < f.start
  stop_pos : 0 < f.stop

/-- A builder does the same whatever has been built before. -/
def Relocates (p : Build Fragment) : Prop := ∀ place, Tracks place (Moved place) p p

variable {alike : α → β → Prop} {then_ : γ → δ → Prop}

theorem Tracks.result {a : α} {b : β} (both : alike a b) : Tracks place alike (pure a) (pure b) := by
  intro c d a' b' c' d' copied run runOther
  obtain ⟨rfl, rfl⟩ := pure_ok run
  obtain ⟨rfl, rfl⟩ := pure_ok runOther
  exact ⟨both, copied⟩

theorem Tracks.bind {p : Build α} {q : Build β} {f : α → Build γ} {f' : β → Build δ} (one : Tracks place alike p q)
    (rest : ∀ a b, alike a b → Tracks place then_ (f a) (f' b)) :
    Tracks place then_ (p >>= f) (q >>= f') := by
  intro c d a b c' d' copied run runOther
  obtain ⟨x, between, ran, others⟩ := bind_ok run
  obtain ⟨y, betweenOther, ranOther, othersOther⟩ := bind_ok runOther
  obtain ⟨same, next⟩ := one _ _ _ _ _ _ copied ran ranOther
  exact rest x y same _ _ _ _ _ _ next others othersOther

theorem Tracks.throw {fault faultOther : RegexFault} :
    Tracks place alike (throw fault : Build α) (throw faultOther : Build β) := by
  intro c d a b c' d' _ run
  cases run

/-- Checks have one result on all graphs, and leave them as they are. -/
theorem Tracks.check {p : Build α} (same : ∀ c d a b c' d', p c = .ok a c' → p d = .ok b d' →
    b = a ∧ c'.graph = c.graph ∧ d'.graph = d.graph) : Tracks place Eq p p := by
  intro c d a b c' d' copied run runOther
  obtain ⟨rfl, graph, graphOther⟩ := same _ _ _ _ _ _ run runOther
  rw [graph, graphOther]
  exact ⟨rfl, copied⟩

theorem Tracks.forM {xs : List α} {p q : α → Build Unit} (each : ∀ x ∈ xs, Tracks place (fun _ _ => True) (p x) (q x)) :
    Tracks place (fun _ _ => True) (xs.forM p) (xs.forM q) := by
  induction xs with
  | nil => exact .result trivial
  | cons x rest ih =>
    obtain ⟨here, later⟩ := List.forall_mem_cons.mp each
    exact here.bind fun _ _ _ => ih later

theorem Tracks.foldlM {xs : List γ} {p : α → γ → Build α} {q : β → γ → Build β}
    (each : ∀ x ∈ xs, ∀ a b, alike a b → Tracks place alike (p a x) (q b x)) {a : α} {b : β} (both : alike a b) :
    Tracks place alike (xs.foldlM p a) (xs.foldlM q b) := by
  induction xs generalizing a b with
  | nil => exact .result both
  | cons x rest ih =>
    obtain ⟨here, later⟩ := List.forall_mem_cons.mp each
    exact (here a b both).bind fun _ _ => ih later

theorem addState_tracks : Tracks place (fun s t => t = place s ∧ 0 < s) addState addState := by
  intro c d a b c' d' copied run runOther
  obtain ⟨rfl, graph⟩ := addState_ok run
  obtain ⟨rfl, graphOther⟩ := addState_ok runOther
  rw [graph, graphOther]
  exact ⟨⟨copied.place_size.symm, copied.size_pos⟩, copied.addState⟩

theorem linkEpsilon_tracks {source target : Nat} (pos : 0 < source) : Tracks place (fun _ _ => True)
    (linkEpsilon source target) (linkEpsilon (place source) (place target)) := by
  intro c d a b c' d' copied run runOther
  rw [linkEpsilon_ok run, linkEpsilon_ok runOther]
  exact ⟨trivial, copied.linkEpsilon pos target⟩

theorem addMoves_tracks {source target : Nat} {more : Moves → Moves} (pos : 0 < source) :
    Tracks place (fun _ _ => True) (addMoves source target more)
      (addMoves (place source) (place target) more) := by
  intro c d a b c' d' copied run runOther
  rw [addMoves_ok run, addMoves_ok runOther]
  exact ⟨trivial, copied.alter pos fun _ => rfl⟩

/-! ### Combinators -/

theorem nothing_relocates : Relocates nothing := fun _ =>
  addState_tracks.bind fun _ _ ⟨same, pos⟩ => .result ⟨same, same, pos, pos⟩

theorem oneChar_relocates (ranges : List CodeRange) : Relocates (oneChar ranges) := by
  intro place
  refine addState_tracks.bind fun start _ ⟨same, pos⟩ => addState_tracks.bind fun stop _ ⟨sameStop, posStop⟩ => ?_
  subst same sameStop
  exact (addMoves_tracks pos).bind fun _ _ _ => .result ⟨rfl, rfl, pos, posStop⟩

theorem text_relocates (settings : BuildSettings) (loc : Location) (chars : List Char) :
    Relocates (text settings loc chars) := by
  intro place
  have checks : Tracks place Eq (chars.forM (admitChar settings loc)) (chars.forM (admitChar settings loc)) :=
    .check fun _ _ _ _ _ _ run runOther =>
      ⟨rfl, (forM_ok (fun w : Char => w.toNat ≤ Text.lastCode) (fun _ _ _ _ => admitChar_ok) run).1,
        (forM_ok (fun w : Char => w.toNat ≤ Text.lastCode) (fun _ _ _ _ => admitChar_ok) runOther).1⟩
  refine checks.bind fun _ _ _ => addState_tracks.bind fun start _ ⟨same, pos⟩ => ?_
  subst same
  have chain := @Tracks.foldlM _ _ _ place (fun s t => t = place s ∧ 0 < s) chars
    (link settings.ignoreCase) (link settings.ignoreCase) (fun c _ s _ ⟨same, pos⟩ => ?_) start (place start) ⟨rfl, pos⟩
  · exact chain.bind fun stop _ ⟨sameStop, posStop⟩ => .result ⟨rfl, sameStop, pos, posStop⟩
  · subst same
    refine addState_tracks.bind fun next _ ⟨same, posNext⟩ => ?_
    subst same
    exact (addMoves_tracks pos).bind fun _ _ _ => .result ⟨rfl, posNext⟩

/-- What has been joined so far, and the same at other places. -/
def MovedIfAny (place : Nat → Nat) : Option Fragment → Option Fragment → Prop :=
  Option.Rel (Moved place)

theorem join_tracks {before other : Option Fragment} {f g : Fragment} (both : MovedIfAny place before other)
    (moved : Moved place f g) :
    Tracks place (MovedIfAny place) (join before f) (join other g) := by
  cases both with
  | none => exact .result (.some moved)
  | @some e e' same =>
    unfold join
    dsimp only
    rw [same.stop, moved.start, same.start, moved.stop]
    exact (linkEpsilon_tracks same.stop_pos).bind fun _ _ _ => .result (.some ⟨rfl, rfl, same.start_pos, moved.stop_pos⟩)

theorem orNothing_tracks {before other : Option Fragment} (both : MovedIfAny place before other) :
    Tracks place (Moved place) (orNothing before) (orNothing other) := by
  cases both with
  | none => exact nothing_relocates place
  | some same => exact .result same

theorem inTurn_relocates {parts : List (Build Fragment)} (each : ∀ p ∈ parts, Relocates p) : Relocates (inTurn parts) := by
  intro place
  refine Tracks.bind (Tracks.foldlM (fun p member before other both => ?_) .none) fun _ _ => orNothing_tracks
  exact (each p member place).bind fun _ _ => join_tracks both

theorem copies_tracks {part : Build Fragment} (relocates : Relocates part) (count : Nat) {before other : Option Fragment}
    (both : MovedIfAny place before other) :
    Tracks place (MovedIfAny place) (copies part count before) (copies part count other) := by
  induction count generalizing before other with
  | zero => exact .result both
  | succ count ih =>
    exact (relocates place).bind fun _ _ moved => (join_tracks both moved).bind fun _ _ joined => ih joined

theorem oneOf_relocates {parts : List (Build Fragment)} (each : ∀ p ∈ parts, Relocates p) : Relocates (oneOf parts) := by
  have fork : Relocates (do
      let start ← addState
      let stop ← addState
      parts.forM fun part => do
        let f ← part
        linkEpsilon start f.start
        linkEpsilon f.stop stop
      return ⟨start, stop⟩) := by
    intro place
    refine addState_tracks.bind fun start _ ⟨same, pos⟩ => addState_tracks.bind fun stop _ ⟨sameStop, posStop⟩ => ?_
    subst same sameStop
    refine Tracks.bind (Tracks.forM fun p member => ?_) fun _ _ _ => .result ⟨rfl, rfl, pos, posStop⟩
    refine (each p member place).bind fun f _ moved => ?_
    rw [moved.start, moved.stop]
    exact (linkEpsilon_tracks pos).bind fun _ _ _ => linkEpsilon_tracks moved.stop_pos
  match parts, each, fork with
  | [], _, fork => exact fork
  | [only], each, _ => exact each only List.mem_cons_self
  | _ :: _ :: _, _, fork => exact fork

theorem around_relocates (skippable repeatable : Bool) {body : Build Fragment} (relocates : Relocates body) :
    Relocates (around skippable repeatable body) := by
  intro place
  refine addState_tracks.bind fun start _ ⟨same, pos⟩ => addState_tracks.bind fun stop _ ⟨sameStop, posStop⟩ => ?_
  subst same sameStop
  refine (relocates place).bind fun f other moved => ?_
  rw [moved.start, moved.stop]
  refine (linkEpsilon_tracks pos).bind fun _ _ _ => ?_
  have done : Tracks place (Moved place) (pure ⟨start, stop⟩)
      (pure ⟨place start, place stop⟩) := .result ⟨rfl, rfl, pos, posStop⟩
  have ending : Tracks place (Moved place)
      (do linkEpsilon f.stop stop
          if repeatable then linkEpsilon f.stop f.start
          return ⟨start, stop⟩)
      (do linkEpsilon (place f.stop) (place stop)
          if repeatable then linkEpsilon (place f.stop) (place f.start)
          return ⟨place start, place stop⟩) := by
    refine (linkEpsilon_tracks moved.stop_pos).bind fun _ _ _ => ?_
    cases repeatable with
    | true => exact (linkEpsilon_tracks moved.stop_pos).bind fun _ _ _ => done
    | false => exact done
  cases skippable with
  | true => exact (linkEpsilon_tracks pos).bind fun _ _ _ => ending
  | false => exact ending

theorem repeated_relocates {body : Build Fragment} (relocates : Relocates body) (least : Nat) (most : Option Nat) :
    Relocates (repeated body least most) := by
  have optional := around_relocates true false relocates
  have more := around_relocates true true relocates
  unfold repeated
  split
  · exact more
  · exact around_relocates false true relocates
  · exact optional
  · intro place
    exact (copies_tracks relocates _ .none).bind fun _ _ before => (more place).bind fun _ _ moved =>
      (join_tracks before moved).bind fun _ _ => orNothing_tracks
  · intro place
    exact (copies_tracks relocates _ .none).bind fun _ _ before => (copies_tracks optional _ before).bind fun _ _ =>
      orNothing_tracks

/-! ### Expressions -/

theorem admittedRanges_tracks {settings : BuildSettings} {loc : Location} {cls : CharClass} :
    Tracks place Eq (admittedRanges settings loc cls) (admittedRanges settings loc cls) :=
  .check fun _ _ _ _ _ _ run runOther => by
    obtain ⟨graph, _, rfl⟩ := admittedRanges_ok run
    obtain ⟨graphOther, _, rfl⟩ := admittedRanges_ok runOther
    exact ⟨rfl, graph, graphOther⟩

theorem gatherChars_tracks {settings : BuildSettings} {alternatives : List Regex} :
    Tracks place Eq (gatherChars settings alternatives) (gatherChars settings alternatives) := by
  rw [gatherChars_eq]
  refine Tracks.bind (Tracks.foldlM (fun r _ gathered _ same => ?_) rfl) fun _ _ same => ?_
  · subst same
    unfold gatherOne
    split
    · exact .result rfl
    · refine admittedRanges_tracks.bind fun more _ same => ?_
      subst same
      split
      · exact .result rfl
      · exact .result rfl
  · subst same
    exact .result rfl

theorem expression_relocates (settings : BuildSettings) (depth : Nat) (active : List String) (r : Regex) :
    Relocates (expression settings depth active r) := by
  induction depth generalizing active r with
  | zero => exact fun _ => .throw
  | succ depth ih =>
    cases r with
    | literal loc written => exact text_relocates settings loc written.toList
    | charClass loc cls =>
      intro place
      refine Tracks.bind admittedRanges_tracks fun ranges _ same => ?_
      subst same
      exact oneChar_relocates ranges place
    | sequence loc parts =>
      refine inTurn_relocates fun p member => ?_
      obtain ⟨r, _, rfl⟩ := List.mem_map.mp member
      exact ih active r
    | choice loc alternatives =>
      intro place
      unfold expression
      cases spliceChoices settings.definitions active [] alternatives with
      | error fault =>
        have never : Tracks place (fun (_ _ : List Regex) => False) (throw fault) (throw fault) := .throw
        exact never.bind fun _ _ none => none.elim
      | ok all =>
        have spliced : Tracks place (fun a b : List Regex => a = b) (pure all) (pure all) := .result rfl
        refine spliced.bind fun all _ same => ?_
        subst same
        refine Tracks.bind gatherChars_tracks fun gathered _ same => ?_
        subst same
        refine oneOf_relocates (fun p member => ?_) place
        obtain ⟨part, _, rfl⟩ := List.mem_map.mp member
        cases part with
        | chars => exact oneChar_relocates gathered.2
        | other r => exact ih active r
    | repetition loc body least most =>
      intro place
      unfold expression
      by_cases wrong : most.any (· < least) = true
      · dsimp only
        rw [if_pos wrong]
        have never : Tracks place (fun (_ _ : PUnit) => False) (throw (.wrongBounds least (most.getD 0) loc))
            (throw (.wrongBounds least (most.getD 0) loc)) := .throw
        exact never.bind fun _ _ none => none.elim
      · dsimp only
        rw [if_neg wrong]
        exact repeated_relocates (ih active body) least most place
    | reference loc label =>
      intro place
      unfold expression
      cases settings.definitions.lookup label with
      | none => exact .throw
      | some r =>
        dsimp only
        split
        · exact .throw
        · exact ih _ r place

end Build

namespace Graph

variable {g h : Graph} {place : Nat → Nat} {settings : BuildSettings} {r : Regex} {f other : Fragment}

theorem Copied.build (copied : Copied place g h) (ok : (g.build settings r).outcome = .ok f)
    (okOther : (h.build settings r).outcome = .ok other) :
    Build.Moved place f other ∧ Copied place (g.build settings r).graph (h.build settings r).graph := by
  unfold Graph.build at ok okOther ⊢
  split at ok
  · rename_i made c run
    obtain rfl := Except.ok.inj ok
    split at okOther
    · rename_i madeOther d runOther
      obtain rfl := Except.ok.inj okOther
      exact Build.expression_relocates _ _ _ _ _ _ _ _ _ _ _ copied run runOther
    · cases okOther
  · cases ok

end Graph

end Automaton

end TokenTables
