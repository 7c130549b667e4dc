import TokenTables.Proofs.Automaton.Meaning

/-!
Closing a state. The rounds come to an end with one in which no list grows; from then on the lists of the
states it walked are complete.
-/

namespace TokenTables.Automaton.Graph

open Kind (NoLater)

variable {base g h : Graph} {sem : Standing} {id : Nat}

/-- States take over more, and nothing is lost. -/
structure Grows (g h : Graph) : Prop extends SameFrame g h where
  more : ∀ s x : Nat, x ∈ (g.state s).epsilon → x ∈ (h.state s).epsilon
  better : ∀ s : Nat, NoLater (h.state s).kind (g.state s).kind

theorem Grows.refl (g : Graph) : Grows g g where
  toSameFrame := .refl g
  more _ _ member := member
  better _ := .refl _

theorem Grows.trans {f g h : Graph} (one : Grows f g) (two : Grows g h) : Grows f h where
  toSameFrame := one.toSameFrame.trans two.toSameFrame
  more s x member := two.more s x (one.more s x member)
  better s := (two.better s).trans (one.better s)

theorem absorb_grows : Grows g (g.absorb id).1 where
  toSameFrame := absorb_sameFrame
  more _ _ := absorb_more
  better s := by
    by_cases same : s = id
    · subst same
      rcases Nat.lt_or_ge s g.size with inside | beyond
      · rw [absorb_state_same inside]
        exact gather_kind_noLater
      · rw [state_of_size_le beyond]
        exact .none _
    · rw [absorb_state_other same]
      exact .refl _

theorem Grows.openPath {s t : Nat} (grows : Grows g h) (path : OpenPath g s t) : OpenPath h s t :=
  path.lift (fun state => state) fun _ _ edge => ⟨grows.more _ _ edge.1, grows.open_iff.mpr edge.2⟩

theorem Grows.openReach {s : Nat} (grows : Grows g h) (member : s ∈ g.openReach id) : s ∈ h.openReach id := by
  obtain ⟨isOpen, path⟩ := mem_openReach.mp member
  exact mem_openReach.mpr ⟨grows.open_iff.mpr isOpen, grows.openPath path⟩

/-! ### Absorbing says nothing wrong -/

/-- Whatever is true of a state, of its list and of everything behind that is true of the list it absorbs. -/
theorem absorb_list {P : Nat → Prop} (behind : ∀ q, P q → ∀ x ∈ (g.state q).epsilon, P x) (itself : P id)
    (list : ∀ x ∈ (g.state id).epsilon, P x) : ∀ x ∈ g.absorbedList id, P x := by
  intro x member
  rcases mem_absorbedList.mp member with found | ⟨_, rfl⟩
  · exact gather_all (fun q holds x edge _ => behind q holds x edge) list x found
  · exact itself

/-- Epsilon moves lead to states of the graph. -/
def InRange (g : Graph) : Prop := ∀ s q : Nat, q ∈ (g.state s).epsilon → q < g.size

theorem absorb_inRange (range : InRange g) (inside : id < g.size) : InRange (g.absorb id).1 := by
  intro s q member
  rw [absorb_sameFrame.size]
  by_cases here : s = id
  · subst here
    rw [absorb_state_same inside] at member
    exact absorb_list (fun q _ x edge => range q x edge) inside (range s) q member
  · rw [absorb_state_other here] at member
    exact range s q member

theorem absorb_sound (sound : Sound base sem g) (inside : id < g.size) : Sound base sem (g.absorb id).1 := by
  have same := @absorb_sameFrame g id
  have listed : ∀ x ∈ g.absorbedList id, Behind base sem id x :=
    absorb_list (fun q behind x member => behind.trans (sound.behind q x member)) (.refl id) (sound.behind id)
  have kinds : ∀ k, (g.absorbed id).2 = some k → EndsAny base sem id k := by
    intro k result
    have source := @gather_kind g (g.state id).epsilon (fun x => Behind base sem id x)
      (fun q behind x member _ => behind.trans (sound.behind q x member)) _ _ _
      (fun x member => sound.behind id x member) k result
    rcases source with old | ⟨q, behind, kind⟩
    · exact sound.kind id k old
    · exact behind.ends (sound.kind q k kind)
  refine ⟨absorb_inRange sound.target inside, fun s q member => ?_, fun s k kind => ?_, fun s n goes => ?_⟩
  all_goals by_cases here : s = id
  · subst here
    rw [absorb_state_same inside] at member
    exact listed q member
  · rw [absorb_state_other here] at member
    exact sound.behind s q member
  · subst here
    rw [absorb_state_same inside] at kind
    exact kinds k kind
  · rw [absorb_state_other here] at kind
    exact sound.kind s k kind
  · subst here
    rw [same.next] at goes
    obtain ⟨noKind, list⟩ := sound.alone s n goes
    have onlySelf : ∀ q ∈ (g.state s).epsilon, q = s := by
      intro q member
      rcases list with bare | single
      · rw [bare] at member
        cases member
      · rw [single] at member
        exact List.mem_singleton.mp member
    have itself : ∀ q, q = s → ∀ x ∈ (g.state q).epsilon, (g.state x).matters → x = s := by
      rintro q rfl x member _
      exact onlySelf x member
    have fixed : (g.absorbed s).1 = (g.state s).epsilon := by
      refine gather_fixed fun q inList x member _ => ?_
      rw [onlySelf q inList] at member
      exact member
    rw [absorb_state_same inside]
    refine ⟨?_, ?_⟩
    · cases result : (g.absorbed s).2 with
      | none => rfl
      | some k =>
        rcases gather_kind itself onlySelf result with old | ⟨q, rfl, kind⟩
        · rw [noKind] at old
          cases old
        · rw [noKind] at kind
          cases kind
    · show g.absorbedList s = [] ∨ g.absorbedList s = [s]
      unfold absorbedList
      rw [fixed]
      rcases list with bare | single
      · rw [bare]
        split
        · exact .inr rfl
        · exact .inl rfl
      · rw [single]
        simp
  · rw [absorb_state_other here] at goes ⊢
    exact sound.alone s n goes

/-! ### A round -/

theorem absorbAll_from (ids : List Nat) (g : Graph) (grew : Bool) :
    ids.foldl (fun (g, grew) id =>
      let (g, grewHere) := Graph.absorb g id
      (g, grew || grewHere)) (g, grew) = ((g.absorbAll ids).1, grew || (g.absorbAll ids).2) := by
  unfold absorbAll
  induction ids generalizing g grew with
  | nil => simp
  | cons s rest ih =>
    simp only [List.foldl_cons]
    rw [ih, ih _ (false || _)]
    simp [Bool.or_assoc]

theorem absorbAll_cons (s : Nat) (rest : List Nat) :
    g.absorbAll (s :: rest) = (((g.absorb s).1.absorbAll rest).1,
      (g.absorb s).2 || ((g.absorb s).1.absorbAll rest).2) := by
  have step := absorbAll_from rest (g.absorb s).1 (false || (g.absorb s).2)
  rw [Bool.false_or] at step
  exact step

theorem absorbAll_grows (ids : List Nat) : Grows g (g.absorbAll ids).1 := by
  induction ids generalizing g with
  | nil => exact .refl g
  | cons s rest ih =>
    rw [absorbAll_cons]
    exact absorb_grows.trans ih

theorem absorbAll_other {ids : List Nat} {s : Nat} (apart : s ∉ ids) : (g.absorbAll ids).1.state s = g.state s := by
  induction ids generalizing g with
  | nil => rfl
  | cons t rest ih =>
    rw [absorbAll_cons]
    have different : s ≠ t := fun same => apart (same ▸ List.mem_cons_self)
    exact (ih fun member => apart (List.mem_cons_of_mem _ member)).trans (absorb_state_other different)

theorem absorbAll_sound {ids : List Nat} (sound : Sound base sem g) (inside : ∀ s ∈ ids, s < g.size) :
    Sound base sem (g.absorbAll ids).1 := by
  induction ids generalizing g with
  | nil => exact sound
  | cons s rest ih =>
    rw [absorbAll_cons]
    refine ih (absorb_sound sound (inside s List.mem_cons_self)) fun t member => ?_
    rw [absorb_sameFrame.size]
    exact inside t (List.mem_cons_of_mem _ member)

theorem absorbAll_inRange {ids : List Nat} (range : InRange g) (inside : ∀ s ∈ ids, s < g.size) :
    InRange (g.absorbAll ids).1 := by
  induction ids generalizing g with
  | nil => exact range
  | cons s rest ih =>
    rw [absorbAll_cons]
    refine ih (absorb_inRange range (inside s List.mem_cons_self)) fun t member => ?_
    rw [absorb_sameFrame.size]
    exact inside t (List.mem_cons_of_mem _ member)

theorem absorbAll_room {ids : List Nat} (range : InRange g) (inside : ∀ s ∈ ids, s < g.size) :
    (g.absorbAll ids).1.room ≤ g.room ∧ ((g.absorbAll ids).2 = true → (g.absorbAll ids).1.room < g.room) := by
  induction ids generalizing g with
  | nil => exact ⟨Nat.le_refl _, fun grew => nomatch grew⟩
  | cons s rest ih =>
    have here := inside s List.mem_cons_self
    obtain ⟨le, less⟩ := absorb_room range here
    have insideRest : ∀ t ∈ rest, t < (g.absorb s).1.size := fun t member => by
      rw [absorb_sameFrame.size]
      exact inside t (List.mem_cons_of_mem _ member)
    obtain ⟨leRest, lessRest⟩ := ih (absorb_inRange range here) insideRest
    rw [absorbAll_cons]
    refine ⟨leRest.trans le, fun grew => ?_⟩
    rcases Bool.or_eq_true _ _ ▸ grew with first | later
    · exact Nat.lt_of_le_of_lt leRest (less first)
    · exact Nat.lt_of_lt_of_le (lessRest later) le

/-- What holds of the states of a round in which no list grows. -/
structure Settled (g h : Graph) (ids : List Nat) : Prop where
  old : ∀ s x : Nat, x ∈ (h.state s).epsilon → x ∈ (g.state s).epsilon ∨ x = s
  behind : ∀ s : Nat, s ∈ ids → ∀ q : Nat, q ∈ (h.state s).epsilon → ∀ x : Nat, x ∈ (h.state q).epsilon →
    (g.state x).matters = true → x ∈ (h.state s).epsilon
  itself : ∀ s : Nat, s ∈ ids → (g.state s).hasMoves = true → s ∈ (h.state s).epsilon
  kind : ∀ s : Nat, s ∈ ids → ∀ q : Nat, q ∈ (h.state s).epsilon → NoLater (h.state s).kind (g.state q).kind

theorem absorbAll_settled {ids : List Nat} (range : InRange g) (inside : ∀ s ∈ ids, s < g.size)
    (stays : (g.absorbAll ids).2 = false) : Settled g (g.absorbAll ids).1 ids := by
  induction ids generalizing g with
  | nil =>
    exact ⟨fun _ _ member => .inl member, fun _ none => absurd none List.not_mem_nil,
      fun _ none => absurd none List.not_mem_nil, fun _ none => absurd none List.not_mem_nil⟩
  | cons s rest ih =>
    have here := inside s List.mem_cons_self
    have same := @absorb_sameFrame g s
    have insideRest : ∀ t ∈ rest, t < (g.absorb s).1.size := fun t member => by
      rw [same.size]
      exact inside t (List.mem_cons_of_mem _ member)
    rw [absorbAll_cons] at stays ⊢
    obtain ⟨staysHere, staysRest⟩ := Bool.or_eq_false_iff.mp stays
    have later := ih (absorb_inRange range here) insideRest staysRest
    have grows := @absorbAll_grows (g.absorb s).1 rest
    obtain ⟨fixed, gathered⟩ := absorbed_of_not_grew staysHere
    have old : ∀ t x : Nat, x ∈ (((g.absorb s).1.absorbAll rest).1.state t).epsilon →
        x ∈ (g.state t).epsilon ∨ x = t := by
      intro t x member
      rcases later.old t x member with before | itself
      · by_cases isHere : t = s
        · subst isHere
          rw [absorb_state_same here] at before
          rcases mem_absorbedList.mp before with found | ⟨_, rfl⟩
          · exact .inl (fixed ▸ found)
          · exact .inr rfl
        · rw [absorb_state_other isHere] at before
          exact .inl before
      · exact .inr itself
    refine ⟨old, fun t member q inT x inQ matters => ?_, fun t member moves => ?_, fun t member q inT => ?_⟩
    all_goals rcases List.mem_cons.mp member with rfl | inRest
    · rcases old t q inT with before | rfl
      · rcases old q x inQ with inQBefore | rfl
        · exact grows.more t x (absorb_more (gathered q before x inQBefore matters))
        · exact inT
      · exact inQ
    · exact later.behind t inRest q inT x inQ (by rwa [same.matters])
    · refine grows.more t t ?_
      rw [absorb_state_same here]
      exact mem_absorbedList.mpr (.inr ⟨moves, rfl⟩)
    · exact later.itself t inRest (by rwa [same.hasMoves])
    · rcases old t q inT with before | rfl
      · have first : NoLater ((g.absorb t).1.state t).kind (g.state q).kind := by
          rw [absorb_state_same here]
          exact absorbed_visits range before
        exact (grows.better t).trans first
      · exact (grows.better q).trans (absorb_grows.better q)
    · exact (later.kind t inRest q inT).trans (absorb_grows.better q)

/-! ### Rounds until nothing grows -/

/-- Each state of a round goes through its list to the end. -/
def AbsorbsFully (g : Graph) : List Nat → Prop
  | [] => True
  | id :: rest => Gathers g 0 (g.state id).epsilon (g.state id).kind (g.absorbed id) ∧
      AbsorbsFully (g.absorb id).1 rest

/-- Any number of rounds from `id` on, up to one in which no list grows. -/
inductive Settles (id : Nat) : Graph → Graph → Prop where
  | last {g : Graph} (fully : AbsorbsFully g (g.openReach id)) (stays : (g.absorbAll (g.openReach id)).2 = false) :
    Settles id g ((g.absorbAll (g.openReach id)).1.markClosed (g.openReach id))
  | again {g after : Graph} (fully : AbsorbsFully g (g.openReach id)) (grew : (g.absorbAll (g.openReach id)).2 = true)
      (later : Settles id (g.absorbAll (g.openReach id)).1 after) : Settles id g after

theorem openReach_inside {s : Nat} (member : s ∈ g.openReach id) : s < g.size := (open_of_mem_openReach member).inside

theorem absorbsFully (range : InRange g) {ids : List Nat} (inside : ∀ s ∈ ids, s < g.size) : AbsorbsFully g ids := by
  induction ids generalizing g with
  | nil => trivial
  | cons s rest ih =>
    have few := unvisited_le g.size (g.state s).epsilon
    refine ⟨gather_gathers range (by omega), ih (absorb_inRange range (inside s List.mem_cons_self)) fun t member => ?_⟩
    rw [absorb_sameFrame.size]
    exact inside t (List.mem_cons_of_mem _ member)

/-- Each round but the last takes up room, so there are enough of them. -/
theorem closeRounds_settles {rounds : Nat} (range : InRange g) (enough : g.room < rounds) :
    Settles id g (closeRounds id rounds g) := by
  induction rounds generalizing g with
  | zero => omega
  | succ rounds ih =>
    have inside : ∀ s ∈ g.openReach id, s < g.size := fun s => openReach_inside
    rw [closeRounds]
    dsimp only
    split
    · rename_i grew
      have fewer := (absorbAll_room range inside).2 grew
      exact .again (absorbsFully range inside) grew (ih (absorbAll_inRange range inside) (by omega))
    · rename_i stays
      exact .last (absorbsFully range inside) (by simpa using stays)

theorem close_settles (range : InRange g) (id : Nat) : Settles id g (g.close id) :=
  closeRounds_settles range (Nat.lt_succ_of_le (room_le g))

/-- A property of graphs that stays when an open state of what `g` has become absorbs more. -/
def KeptOn (g : Graph) (I : Graph → Prop) : Prop :=
  ∀ (h : Graph) (s : Nat), Grows g h → InRange h → Open h s → I h → I (h.absorb s).1

/-- The same of graphs that mean no more than they should. -/
def Kept (base : Graph) (sem : Standing) (g : Graph) (I : Graph → Prop) : Prop :=
  ∀ (h : Graph) (s : Nat), Grows g h → Sound base sem h → Open h s → I h → I (h.absorb s).1

theorem Kept.on {I : Graph → Prop} (kept : Kept base sem g I) : KeptOn g fun h => Sound base sem h ∧ I h :=
  fun h s grows _ isOpen holds => ⟨absorb_sound holds.1 isOpen.inside, kept h s grows holds.1 isOpen holds.2⟩

theorem absorbAll_keptOn {I : Graph → Prop} (kept : KeptOn g I) {ids : List Nat} (grows : Grows g h)
    (range : InRange h) (opens : ∀ s ∈ ids, Open h s) (holds : I h) : I (h.absorbAll ids).1 := by
  induction ids generalizing h with
  | nil => exact holds
  | cons s rest ih =>
    have here := opens s List.mem_cons_self
    rw [absorbAll_cons]
    exact ih (grows.trans absorb_grows) (absorb_inRange range here.inside)
      (fun t member => absorb_sameFrame.open_iff.mpr (opens t (List.mem_cons_of_mem _ member)))
      (kept h s grows range here holds)

theorem absorbAll_kept {I : Graph → Prop} (kept : Kept base sem g I) {ids : List Nat} (grows : Grows g h)
    (sound : Sound base sem h) (opens : ∀ s ∈ ids, Open h s) (holds : I h) : I (h.absorbAll ids).1 :=
  (absorbAll_keptOn kept.on grows sound.target opens ⟨sound, holds⟩).2

/-- The graph before the last round of closing `id` in `g`. -/
structure Quieted (g last : Graph) (id : Nat) : Prop where
  grows : Grows g last
  range : InRange last
  others : ∀ s : Nat, s ∉ last.openReach id → last.state s = g.state s
  stays : (last.absorbAll (last.openReach id)).2 = false

theorem Settles.quieted {I : Graph → Prop} {after : Graph} (settles : Settles id h after) (kept : KeptOn g I)
    (grows : Grows g h) (range : InRange h) (others : ∀ s : Nat, s ∉ h.openReach id → h.state s = g.state s)
    (holds : I h) : ∃ last, Quieted g last id ∧ I last ∧
      after = (last.absorbAll (last.openReach id)).1.markClosed (last.openReach id) := by
  induction settles with
  | @last h fully stays => exact ⟨h, ⟨grows, range, others, stays⟩, holds, rfl⟩
  | @again h after fully grew later ih =>
    have inside : ∀ s ∈ h.openReach id, s < h.size := fun s => openReach_inside
    have further := @absorbAll_grows h (h.openReach id)
    refine ih (grows.trans further) (absorbAll_inRange range inside) (fun s apart => ?_)
      (absorbAll_keptOn kept grows range (fun s => open_of_mem_openReach) holds)
    have notBefore : s ∉ h.openReach id := fun member => apart (further.openReach member)
    exact (absorbAll_other notBefore).trans (others s notBefore)

/-- The graph before the last round, if it means no more than it should. -/
structure LastRound (base : Graph) (sem : Standing) (g h : Graph) (id : Nat) : Prop where
  grows : Grows g h
  sound : Sound base sem h
  others : ∀ s : Nat, s ∉ h.openReach id → h.state s = g.state s
  stays : (h.absorbAll (h.openReach id)).2 = false

theorem LastRound.quieted {last : Graph} (before : LastRound base sem g last id) : Quieted g last id :=
  ⟨before.grows, before.sound.target, before.others, before.stays⟩

theorem Settles.lastRound {I : Graph → Prop} {after : Graph} (settles : Settles id h after)
    (kept : Kept base sem g I) (grows : Grows g h) (sound : Sound base sem h)
    (others : ∀ s : Nat, s ∉ h.openReach id → h.state s = g.state s) (holds : I h) :
    ∃ last, LastRound base sem g last id ∧ I last ∧
      after = (last.absorbAll (last.openReach id)).1.markClosed (last.openReach id) := by
  obtain ⟨last, quieted, ⟨soundLast, holdsLast⟩, result⟩ :=
    settles.quieted kept.on grows sound.target others ⟨sound, holds⟩
  exact ⟨last, ⟨quieted.grows, soundLast, quieted.others, quieted.stays⟩, holdsLast, result⟩

theorem markClosed_size {ids : List Nat} : (g.markClosed ids).size = g.size := by
  unfold markClosed
  induction ids generalizing g with
  | nil => rfl
  | cons s rest ih => exact ih.trans size_alter

theorem markClosed_frame {ids : List Nat} :
    ({ g.markClosed ids with states := #[] } : Graph) = { g with states := #[] } := by
  unfold markClosed
  induction ids generalizing g with
  | nil => rfl
  | cons s rest ih => exact ih

theorem markClosed_other {ids : List Nat} {s : Nat} (apart : s ∉ ids) : (g.markClosed ids).state s = g.state s := by
  unfold markClosed
  induction ids generalizing g with
  | nil => rfl
  | cons t rest ih =>
    have different : s ≠ t := fun same => apart (same ▸ List.mem_cons_self)
    exact (ih fun member => apart (List.mem_cons_of_mem _ member)).trans (state_alter_other different)

theorem markClosed_same {ids : List Nat} {s : Nat} (member : s ∈ ids) (inside : s < g.size) :
    (g.markClosed ids).state s = { g.state s with isClosed := true } := by
  unfold markClosed
  induction ids generalizing g with
  | nil => cases member
  | cons t rest ih =>
    rw [List.foldl_cons]
    by_cases later : s ∈ rest
    · rw [ih later (by rwa [size_alter])]
      rw [state_alter]
      split
      · rename_i here
        rw [here.1]
      · rfl
    · obtain rfl := (List.mem_cons.mp member).resolve_right later
      exact (markClosed_other later).trans (state_alter_same inside)

/-! ### What closing comes to -/

/-- What closing `id` does: states that are open afterwards, or were closed before, are as they were. -/
structure Closes (g after : Graph) (id : Nat) : Prop where
  size : after.size = g.size
  frame : { after with states := #[] } = { g with states := #[] }
  state : ∀ s : Nat, after.state s = { g.state s with
    epsilon := (after.state s).epsilon, kind := (after.state s).kind, isClosed := (after.state s).isClosed }
  ofClosed : ∀ s : Nat, (g.state s).isClosed = true → after.state s = g.state s
  ofOpen : ∀ s : Nat, (after.state s).isClosed = false → after.state s = g.state s
  done : id < g.size → (after.state id).isClosed = true

/-- The graph after the last round, before the states are marked. -/
structure Ended (g last h : Graph) (id : Nat) : Prop where
  before : Quieted g last id
  further : Grows last h
  grows : Grows g h
  others : ∀ s : Nat, s ∉ last.openReach id → h.state s = g.state s
  settled : Settled last h (last.openReach id)

theorem Quieted.ended {last : Graph} (before : Quieted g last id) :
    Ended g last (last.absorbAll (last.openReach id)).1 id := by
  have inside : ∀ s ∈ last.openReach id, s < last.size := fun s => openReach_inside
  exact ⟨before, absorbAll_grows _, before.grows.trans (absorbAll_grows _),
    fun s apart => (absorbAll_other apart).trans (before.others s apart),
    absorbAll_settled before.range inside before.stays⟩

/-- The same of graphs that mean no more than they should. -/
structure Closed (base : Graph) (sem : Standing) (g last h : Graph) (id : Nat) : Prop where
  before : LastRound base sem g last id
  further : Grows last h
  grows : Grows g h
  sound : Sound base sem h
  others : ∀ s : Nat, s ∉ last.openReach id → h.state s = g.state s
  settled : Settled last h (last.openReach id)

theorem LastRound.closed {last : Graph} (before : LastRound base sem g last id) :
    Closed base sem g last (last.absorbAll (last.openReach id)).1 id := by
  obtain ⟨_, further, grows, others, settled⟩ := before.quieted.ended
  exact ⟨before, further, grows, absorbAll_sound before.sound fun s => openReach_inside, others, settled⟩

theorem Closed.ended {last : Graph} (closed : Closed base sem g last h id) : Ended g last h id :=
  ⟨closed.before.quieted, closed.further, closed.grows, closed.others, closed.settled⟩

theorem close_closed {I : Graph → Prop} (kept : Kept base sem g I) (sound : Sound base sem g) (holds : I g)
    (id : Nat) : ∃ last h, Closed base sem g last h id ∧ I h ∧
      g.close id = h.markClosed (last.openReach id) := by
  obtain ⟨last, before, holdsLast, result⟩ :=
    (close_settles sound.target id).lastRound kept (.refl g) sound (fun _ _ => rfl) holds
  exact ⟨last, _, before.closed,
    absorbAll_kept kept before.grows before.sound (fun s => open_of_mem_openReach) holdsLast, result⟩

/-- What holds after the first round and is kept holds in the end, and before the last round if this is not the first
one. -/
theorem close_afterFirst {I : Graph → Prop} (kept : Kept base sem g I) (sound : Sound base sem g) (id : Nat)
    (first : I (g.absorbAll (g.openReach id)).1) : ∃ last h, Closed base sem g last h id ∧ I h ∧ (last = g ∨ I last) ∧
      g.close id = h.markClosed (last.openReach id) := by
  have inside : ∀ s ∈ g.openReach id, s < g.size := fun s => openReach_inside
  have settles := close_settles sound.target id
  generalize g.close id = after at settles
  cases settles with
  | last _ stays =>
    have before : LastRound base sem g g id := ⟨.refl g, sound, fun _ _ => rfl, stays⟩
    exact ⟨g, _, before.closed, first, .inl rfl, rfl⟩
  | again _ grew later =>
    have grows := @absorbAll_grows g (g.openReach id)
    have others : ∀ s : Nat, s ∉ (g.absorbAll (g.openReach id)).1.openReach id →
        (g.absorbAll (g.openReach id)).1.state s = g.state s := fun s apart =>
      absorbAll_other fun member => apart (grows.openReach member)
    obtain ⟨last, before, holdsLast, result⟩ := later.lastRound kept grows (absorbAll_sound sound inside) others first
    exact ⟨last, _, before.closed,
      absorbAll_kept kept before.grows before.sound (fun s => open_of_mem_openReach) holdsLast, .inr holdsLast, result⟩

/-- A round goes through the open states in the order in which the walk leaves them, each of them once. -/
theorem absorbAll_ordered {Q : Graph → Set Nat → Prop} (range : InRange g)
    (step : ∀ (h : Graph) (s : Nat) (left : Set Nat), Grows g h → InRange h → Open h s → s ∉ left →
      (∀ t, OpenEdge g s t → t ∈ left ∨ OpenPath g t s) → Q h left → Q (h.absorb s).1 (insert s left))
    (start : Q g ∅) : Q (g.absorbAll (g.openReach id)).1 {s | s ∈ g.openReach id} := by
  have order := @openReach_inOrder g id
  have once := @openReach_nodup g id
  have opens : ∀ s ∈ g.openReach id, Open g s := fun s => open_of_mem_openReach
  generalize g.openReach id = all at order once opens
  have along : ∀ (rest front : List Nat) (h : Graph), front ++ rest = all → Grows g h → InRange h →
      Q h {s | s ∈ front} → Q (h.absorbAll rest).1 {s | s ∈ all} := by
    intro rest
    induction rest with
    | nil =>
      intro front h split _ _ holds
      rw [List.append_nil] at split
      rwa [← split]
    | cons s rest ih =>
      intro front h split grows range holds
      have behind : LeftInOrder g (s :: front.reverse) := by
        refine @LeftInOrder.suffix g rest.reverse _ ?_
        rw [← split] at order
        simpa using order
      have isNew : s ∉ front := by
        rw [← split] at once
        exact fun member => (List.nodup_append.mp once).2.2 s member s List.mem_cons_self rfl
      have isOpen : Open h s := grows.open_iff.mpr (opens s (split ▸ by simp))
      have next := step h s _ grows range isOpen isNew (fun t edge => ?_) holds
      · rw [absorbAll_cons]
        refine ih (front ++ [s]) _ (by rw [List.append_assoc]; exact split) (grows.trans absorb_grows)
          (absorb_inRange range isOpen.inside) ?_
        have same : {t | t ∈ front ++ [s]} = insert s {t | t ∈ front} := by
          ext t
          simp [or_comm]
        rwa [same]
      · simpa using behind.1 t edge
  refine along all [] g rfl (.refl g) range ?_
  simpa using start

theorem absorbAll_inOrder {Q : Graph → Set Nat → Prop} (sound : Sound base sem g)
    (step : ∀ (h : Graph) (s : Nat) (left : Set Nat), Grows g h → Sound base sem h → Open h s →
      (∀ t, OpenEdge g s t → t ∈ left ∨ OpenPath g t s) → Q h left → Q (h.absorb s).1 (insert s left))
    (start : Q g ∅) : Q (g.absorbAll (g.openReach id)).1 {s | s ∈ g.openReach id} := by
  refine (@absorbAll_ordered g id (fun h left => Sound base sem h ∧ Q h left) sound.target ?_ ⟨sound, start⟩).2
  rintro h s left grows _ isOpen _ next ⟨soundH, holds⟩
  exact ⟨absorb_sound soundH isOpen.inside, step h s left grows soundH isOpen next holds⟩

variable {last : Graph}

theorem Ended.inside (ended : Ended g last h id) {s : Nat} (member : s ∈ last.openReach id) : s < h.size := by
  rw [ended.grows.size, ← ended.before.grows.size]
  exact openReach_inside member

theorem Ended.wasOpen (ended : Ended g last h id) {s : Nat} (member : s ∈ last.openReach id) : Open g s :=
  ended.before.grows.open_iff.mp (open_of_mem_openReach member)

/-- A state behind a walked one has been walked or was closed before. -/
theorem Ended.next (ended : Ended g last h id) {s q : Nat} (member : s ∈ last.openReach id)
    (edge : q ∈ (g.state s).epsilon) (inside : q < g.size) :
    q ∈ last.openReach id ∨ (g.state q).isClosed = true := by
  cases status : (g.state q).isClosed with
  | true => exact .inr rfl
  | false =>
    obtain ⟨isOpen, path⟩ := mem_openReach.mp member
    have target : Open last q := ended.before.grows.open_iff.mpr ⟨inside, status⟩
    exact .inl (mem_openReach.mpr ⟨isOpen, path.tail ⟨ended.before.grows.more s q edge, target⟩⟩)

theorem Ended.apart (ended : Ended g last h id) {s : Nat} (away : s ∉ last.openReach id) :
    (h.markClosed (last.openReach id)).state s = g.state s :=
  (markClosed_other away).trans (ended.others s away)

theorem Ended.marked (ended : Ended g last h id) {s : Nat} (member : s ∈ last.openReach id) :
    (h.markClosed (last.openReach id)).state s = { h.state s with isClosed := true } :=
  markClosed_same member (ended.inside member)

theorem Ended.marked_epsilon (ended : Ended g last h id) (s : Nat) :
    ((h.markClosed (last.openReach id)).state s).epsilon = (h.state s).epsilon := by
  by_cases member : s ∈ last.openReach id
  · rw [ended.marked member]
  · rw [markClosed_other member]

theorem Ended.marked_kind (ended : Ended g last h id) (s : Nat) :
    ((h.markClosed (last.openReach id)).state s).kind = (h.state s).kind := by
  by_cases member : s ∈ last.openReach id
  · rw [ended.marked member]
  · rw [markClosed_other member]

theorem Ended.closes (ended : Ended g last h id) : Closes g (h.markClosed (last.openReach id)) id := by
  refine ⟨markClosed_size.trans ended.grows.size, markClosed_frame.trans ended.grows.frame, fun s => ?_,
    fun s wasClosed => ?_, fun s isOpen => ?_, fun inside => ?_⟩
  · by_cases member : s ∈ last.openReach id
    · rw [ended.marked member, ended.grows.state s]
    · rw [ended.apart member]
  · refine ended.apart fun member => ?_
    rw [(ended.wasOpen member).unclosed] at wasClosed
    cases wasClosed
  · refine ended.apart fun member => ?_
    rw [ended.marked member] at isOpen
    cases isOpen
  · cases status : (g.state id).isClosed with
    | true =>
      refine (congrArg State.isClosed (ended.apart fun member => ?_)).trans status
      rw [(ended.wasOpen member).unclosed] at status
      cases status
    | false =>
      have isOpen : Open last id := ended.before.grows.open_iff.mpr ⟨inside, status⟩
      rw [ended.marked (mem_openReach.mpr ⟨isOpen, .refl⟩)]

theorem Closed.inside (closed : Closed base sem g last h id) {s : Nat} (member : s ∈ last.openReach id) :
    s < h.size := closed.ended.inside member

theorem Closed.wasOpen (closed : Closed base sem g last h id) {s : Nat} (member : s ∈ last.openReach id) :
    Open g s := closed.ended.wasOpen member

theorem Closed.next (closed : Closed base sem g last h id) {s q : Nat} (member : s ∈ last.openReach id)
    (edge : q ∈ (g.state s).epsilon) (inside : q < g.size) :
    q ∈ last.openReach id ∨ (g.state q).isClosed = true := closed.ended.next member edge inside

theorem Closed.marked_epsilon (closed : Closed base sem g last h id) (s : Nat) :
    ((h.markClosed (last.openReach id)).state s).epsilon = (h.state s).epsilon := closed.ended.marked_epsilon s

theorem Closed.marked_kind (closed : Closed base sem g last h id) (s : Nat) :
    ((h.markClosed (last.openReach id)).state s).kind = (h.state s).kind := closed.ended.marked_kind s

theorem Closed.closes (closed : Closed base sem g last h id) :
    Closes g (h.markClosed (last.openReach id)) id := closed.ended.closes

theorem Chain.gets (rep : Represents base sem g) {s code t : Nat} (chain : Chain base sem g code t s) :
    GetsAny base sem s code t := by
  induction chain with
  | mover moves =>
    obtain ⟨n, next, _⟩ := moves.2
    exact (rep.mover _ n next code t).mp moves
  | closed _ gets => exact gets
  | step edge _ ih => exact (rep.behind _ _ edge).gets ih

/-- Whatever can be read from a walked state on is in its list after the last round. -/
theorem Closed.covers (closed : Closed base sem g last h id) (rep : Represents base sem g) {s code t : Nat}
    (chain : Chain base sem g code t s) (known : s ∈ last.openReach id ∨ (g.state s).isClosed = true) :
    MovesTo g sem s code t ∨ ∃ m ∈ (h.state s).epsilon, MovesTo g sem m code t := by
  induction chain with
  | mover moves => exact .inl moves
  | @closed s status gets =>
    obtain ⟨m, member, moves⟩ := rep.complete s status code t gets
    exact .inr ⟨m, closed.grows.more s m member, moves⟩
  | @step s q edge after ih =>
    rcases known with walked | status
    · have inList := closed.grows.more s q edge
      rcases ih (closed.next walked edge (rep.target s q edge)) with moves | ⟨m, member, moves⟩
      · exact .inr ⟨q, inList, moves⟩
      · have matters : (last.state m).matters = true := by
          unfold State.matters
          rw [closed.before.grows.hasMoves, moves.hasMoves (rep.valid m), Bool.or_true]
        exact .inr ⟨m, closed.settled.behind s walked q inList m member matters, moves⟩
    · have gets := (rep.behind s q edge).gets (after.gets rep)
      obtain ⟨m, member, moves⟩ := rep.complete s status code t gets
      exact .inr ⟨m, closed.grows.more s m member, moves⟩

/-- Closing keeps to what the graph means. -/
theorem Closed.represents (closed : Closed base sem g last h id) (rep : Represents base sem g) :
    Represents base sem (h.markClosed (last.openReach id)) := by
  have closes := closed.closes
  have epsilon := closed.marked_epsilon
  have kind := closed.marked_kind
  have unwalked : ∀ s : Nat, s ∉ last.openReach id →
      (h.markClosed (last.openReach id)).state s = g.state s := fun s member =>
    (markClosed_other member).trans (closed.others s member)
  generalize marked : h.markClosed (last.openReach id) = after at closes epsilon kind unwalked
  have moves : ∀ s : Nat, (after.state s).moves = (g.state s).moves := fun s => by rw [closes.state s]
  have next : ∀ s : Nat, (after.state s).next = (g.state s).next := fun s => by rw [closes.state s]
  have movesTo : ∀ {s code t : Nat}, MovesTo after sem s code t ↔ MovesTo g sem s code t := by
    intro s code t
    unfold MovesTo
    rw [moves, next]
  refine {
    target := fun s q member => ?_
    behind := fun s q member => ?_
    kind := fun s k same => ?_
    alone := fun s n goes => ?_
    size_le := ?_
    initial := ?_
    noNames := ?_
    unnamed := fun s => ?_
    self := rep.self
    kept := fun s inside => ?_
    untouched := fun s inside isOpen => ?_
    idle := fun s halts => ?_
    valid := fun s => ?_
    next := fun s n goes => ?_
    again := fun s n m goes more => ?_
    mover := fun s n goes code t => ?_
    complete := fun s status code t gets => ?_
    chain := fun s code t inside gets => ?_
    cache := fun members m member => ?_ }
  · rw [epsilon] at member
    have inside := closed.sound.target s q member
    rw [closed.grows.size] at inside
    rwa [closes.size]
  · rw [epsilon] at member
    exact closed.sound.behind s q member
  · rw [kind] at same
    exact closed.sound.kind s k same
  · rw [next, ← closed.grows.next] at goes
    rw [kind, epsilon]
    exact closed.sound.alone s n goes
  · rw [closes.size]
    exact rep.size_le
  · exact (congrArg Graph.initial closes.frame).trans rep.initial
  · exact ⟨(congrArg Graph.named closes.frame).trans rep.noNames.1,
      (congrArg Graph.groups closes.frame).trans rep.noNames.2⟩
  · rw [closes.state s]
    exact ⟨(rep.unnamed s).reported, (rep.unnamed s).name, (rep.unnamed s).isAlias, (rep.unnamed s).namesBehind,
      (rep.unnamed s).dispatch⟩
  · rw [closes.state s]
    exact rep.kept s inside
  · have same := closes.ofOpen s isOpen
    rw [same] at isOpen ⊢
    exact rep.untouched s inside isOpen
  · rw [next] at halts
    rw [moves]
    exact rep.idle s halts
  · rw [moves]
    exact rep.valid s
  · rw [next] at goes
    rw [closes.size, closes.state s]
    exact rep.next s n goes
  · rw [next] at goes more
    exact rep.again s n m goes more
  · rw [next] at goes
    rw [movesTo]
    exact rep.mover s n goes code t
  · have covered : ∃ m ∈ (h.state s).epsilon, MovesTo g sem m code t := by
      by_cases member : s ∈ last.openReach id
      · have inside : s < g.size := (closed.wasOpen member).inside
        rcases closed.covers rep (rep.chain s code t inside gets) (.inl member) with here | there
        · have moving : (last.state s).hasMoves = true := by
            rw [closed.before.grows.hasMoves, here.hasMoves (rep.valid s)]
          exact ⟨s, closed.settled.itself s member moving, here⟩
        · exact there
      · rw [unwalked s member] at status
        rw [closed.others s member]
        exact rep.complete s status code t gets
    obtain ⟨m, member, moving⟩ := covered
    rw [epsilon]
    exact ⟨m, member, movesTo.mpr moving⟩
  · rw [closes.size] at inside
    have chain := rep.chain s code t inside gets
    clear inside gets
    induction chain with
    | mover moving => exact .mover (movesTo.mpr moving)
    | @closed s status gets => exact .closed (by rw [closes.ofClosed s status]; exact status) gets
    | @step s q edge further ih =>
      cases status : (after.state s).isClosed with
      | true => exact .closed status ((rep.behind s q edge).gets (further.gets rep))
      | false =>
        refine .step ?_ ih
        rw [closes.ofOpen s status]
        exact edge
  · rw [merged_of_frame closes.frame] at member
    rw [next, closes.size]
    exact rep.cache members m member

end TokenTables.Automaton.Graph
