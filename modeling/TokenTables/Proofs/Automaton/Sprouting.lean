import TokenTables.Proofs.Automaton.Expression

/-!
What building does to a graph however it ends. Also a builder that stops at a fault only adds states, and the epsilon
moves of the added states lead to one another.
-/

namespace TokenTables.Automaton

namespace Graph

/-- States have been added whose epsilon moves lead to one another, in ascending order. -/
structure Sprouted (before after : Graph) : Prop extends Grown before after where
  among : ∀ s : Nat, before.size ≤ s → ∀ t ∈ (after.state s).epsilon, before.size ≤ t ∧ t < after.size
  ascending : ∀ s : Nat, before.size ≤ s → Ascending (after.state s).epsilon

variable {base g : Graph} {source target : Nat}

theorem Sprouted.refl : Sprouted g g where
  toGrown := .refl
  among s beyond t edge := by
    rw [state_of_size_le beyond] at edge
    cases edge
  ascending s beyond := by
    rw [state_of_size_le beyond]
    exact .nil

theorem Sprouted.addState (sprouted : Sprouted base g) : Sprouted base (g.addState {}) where
  toGrown := sprouted.toGrown.trans (.addState unmarked_blank)
  among s low t edge := by
    rw [state_addState] at edge
    rw [size_addState]
    split at edge
    · cases edge
    · obtain ⟨above, below⟩ := sprouted.among s low t edge
      exact ⟨above, Nat.lt_succ_of_lt below⟩
  ascending s low := by
    rw [state_addState]
    split
    · exact .nil
    · exact sprouted.ascending s low

/-- The number of a state that has been added. -/
def New (base : Graph) (more id : Nat) : Prop := base.size ≤ id ∧ id < more

theorem New.mono {fewer more id : Nat} (new : New base fewer id) (le : fewer ≤ more) : New base more id :=
  ⟨new.1, Nat.lt_of_lt_of_le new.2 le⟩

theorem Sprouted.linkEpsilon (sprouted : Sprouted base g) (new : New base g.size source)
    (other : New base g.size target) : Sprouted base (g.linkEpsilon source target) := by
  refine ⟨sprouted.toGrown.linkEpsilon new.1, fun s low t edge => ?_, fun s low => ?_⟩
  all_goals by_cases here : s = source
  · subst here
    rw [state_linkEpsilon_same new.2] at edge
    rw [size_linkEpsilon]
    rcases mem_insertNat.mp edge with rfl | old
    · exact other
    · exact sprouted.among s low t old
  · rw [state_linkEpsilon_other here] at edge
    rw [size_linkEpsilon]
    exact sprouted.among s low t edge
  · subst here
    rw [state_linkEpsilon_same new.2]
    exact insertNat_ascending (sprouted.ascending s low)
  · rw [state_linkEpsilon_other here]
    exact sprouted.ascending s low

theorem Sprouted.addMoves (sprouted : Sprouted base g) (new : base.size ≤ source) (more : Moves → Moves) :
    Sprouted base (g.alter source fun s => { s with moves := more s.moves, next := some target }) := by
  have epsilon : ∀ s : Nat, ((g.alter source fun s =>
      { s with moves := more s.moves, next := some target }).state s).epsilon = (g.state s).epsilon := by
    intro s
    rw [state_alter]
    split
    · rename_i here
      rw [here.1]
    · rfl
  refine ⟨sprouted.toGrown.alter new fun s blank => ?_, fun s low t edge => ?_, fun s low => ?_⟩
  · unfold Unmarked at blank ⊢
    rw [blank]
  · rw [epsilon] at edge
    rw [size_alter]
    exact sprouted.among s low t edge
  · rw [epsilon]
    exact sprouted.ascending s low

end Graph

namespace Build

open TokenTables.Automaton.Graph

variable {α β : Type} {base : Graph} {known : Nat} {settings : BuildSettings}

/-- The builder, which knows of that many states, only adds states, even if it stops at a fault. What it returns is
right among the states that there are then. -/
def Sprouts (base : Graph) (known : Nat) (p : Build α) (P : Nat → α → Prop) : Prop :=
  ∀ c, Sprouted base c.graph → known ≤ c.graph.size →
    (∃ a after, p c = .ok a after ∧ Sprouted base after.graph ∧ c.graph.size ≤ after.graph.size ∧
      P after.graph.size a) ∨
    ∃ fault after, p c = .error fault after ∧ Sprouted base after.graph

/-- Nothing is said about what is returned. -/
abbrev SproutsOnly (base : Graph) (known : Nat) (p : Build α) : Prop := Sprouts base known p fun _ _ => True

theorem Sprouts.bind {p : Build α} {f : α → Build β} {P : Nat → α → Prop} {result : Nat → β → Prop}
    (first : Sprouts base known p P)
    (rest : ∀ more a, known ≤ more → P more a → Sprouts base more (f a) result) :
    Sprouts base known (p >>= f) result := by
  intro c sprouted le
  show (∃ b after, EStateM.bind p f c = .ok b after ∧ _) ∨ ∃ fault after, EStateM.bind p f c = .error fault after ∧ _
  unfold EStateM.bind
  rcases first c sprouted le with ⟨a, between, run, sproutedThen, grew, holds⟩ | ⟨fault, between, run, sproutedThen⟩
  · rw [run]
    rcases rest _ a (le.trans grew) holds between sproutedThen (Nat.le_refl _) with
      ⟨b, after, last, sproutedLast, further, holdsLast⟩ | failed
    · exact .inl ⟨b, after, last, sproutedLast, grew.trans further, holdsLast⟩
    · exact .inr failed
  · rw [run]
    exact .inr ⟨fault, between, rfl, sproutedThen⟩

theorem Sprouts.knowing {p : Build α} {P : Nat → α → Prop} (sprouts : Sprouts base 0 p P) :
    Sprouts base known p P := fun c sprouted _ => sprouts c sprouted (Nat.zero_le _)

theorem sprouts_pure {a : α} {P : Nat → α → Prop} (holds : ∀ more, known ≤ more → P more a) :
    Sprouts base known (pure a) P := fun c sprouted le => .inl ⟨a, c, rfl, sprouted, Nat.le_refl _, holds _ le⟩

theorem sprouts_throw {fault : RegexFault} {P : Nat → α → Prop} :
    Sprouts base known (throw fault) P := fun c sprouted _ => .inr ⟨fault, c, rfl, sprouted⟩

theorem sprouts_addState : Sprouts base known addState (New base) :=
  fun c sprouted _ => .inl ⟨c.graph.size, _, rfl, sprouted.addState, by simp, sprouted.size_le, by simp⟩

theorem sprouts_linkEpsilon {source target : StateId} (new : New base known source) (other : New base known target) :
    SproutsOnly base known (linkEpsilon source target) := fun c sprouted le =>
  .inl ⟨(), _, rfl, sprouted.linkEpsilon (new.mono le) (other.mono le), by simp, trivial⟩

theorem sprouts_addMoves {source target : StateId} {more : Moves → Moves} (new : base.size ≤ source) :
    SproutsOnly base known (addMoves source target more) := fun c sprouted _ =>
  .inl ⟨(), _, rfl, sprouted.addMoves new more, by simp, trivial⟩

theorem sprouts_foldlM {f : β → α → Build β} {P : Nat → β → Prop} {xs : List α} {b : β}
    (mono : ∀ {fewer more b}, P fewer b → fewer ≤ more → P more b) (begins : P known b)
    (each : ∀ more b, known ≤ more → P more b → ∀ a ∈ xs, Sprouts base more (f b a) P) :
    Sprouts base known (xs.foldlM f b) P := by
  induction xs generalizing known b with
  | nil => exact sprouts_pure fun _ le => mono begins le
  | cons a rest ih =>
    rw [List.foldlM_cons]
    refine (each known b (Nat.le_refl _) begins a List.mem_cons_self).bind fun more next le holds => ih holds ?_
    exact fun most b further holds a member => each most b (le.trans further) holds a (List.mem_cons_of_mem _ member)

theorem sprouts_forM {f : α → Build Unit} {xs : List α} (each : ∀ a ∈ xs, ∀ more, known ≤ more → SproutsOnly base more (f a)) :
    SproutsOnly base known (xs.forM f) := by
  induction xs generalizing known with
  | nil => exact sprouts_pure fun _ _ => trivial
  | cons a rest ih =>
    refine (each a List.mem_cons_self known (Nat.le_refl _)).bind fun more _ le _ => ih fun b member most further => ?_
    exact each b (List.mem_cons_of_mem _ member) most (le.trans further)

/-! ### Checks -/

theorem sprouts_admitChar {loc : Location} {c : Char} : SproutsOnly base known (admitChar settings loc c) := by
  unfold admitChar
  split
  · exact sprouts_throw
  · split
    · exact fun c sprouted _ => .inl ⟨(), _, rfl, sprouted, Nat.le_refl _, trivial⟩
    · exact sprouts_pure fun _ _ => trivial

theorem sprouts_admitItem {loc : Location} {item : ClassPart} :
    SproutsOnly base known (admitItem settings loc item) := by
  unfold admitItem
  split
  · exact sprouts_throw.bind (P := fun _ _ => False) fun _ _ _ impossible => impossible.elim
  · exact sprouts_admitChar

theorem sprouts_admittedRanges {loc : Location} {cls : CharClass} :
    SproutsOnly base known (admittedRanges settings loc cls) :=
  (sprouts_forM fun _ _ _ _ => sprouts_admitItem).bind fun _ _ _ _ => sprouts_pure fun _ _ => trivial

theorem sprouts_gatherChars {alternatives : List Regex} : SproutsOnly base known (gatherChars settings alternatives) := by
  rw [gatherChars_eq]
  refine (sprouts_foldlM (P := fun _ _ => True) (fun _ _ => trivial) trivial fun _ gathered _ _ r _ => ?_).bind
    fun _ _ _ _ => sprouts_pure fun _ _ => trivial
  unfold gatherOne
  cases singleChars? r with
  | none => exact sprouts_pure fun _ _ => trivial
  | some cls =>
    refine sprouts_admittedRanges.bind fun _ _ _ _ => ?_
    cases gathered.2 with
    | none => exact sprouts_pure fun _ _ => trivial
    | some ranges => exact sprouts_pure fun _ _ => trivial

/-! ### Fragments -/

/-- A fragment between added states. -/
def NewFragment (base : Graph) (more : Nat) (f : Fragment) : Prop := New base more f.start ∧ New base more f.stop

theorem NewFragment.mono {fewer more : Nat} {f : Fragment} (new : NewFragment base fewer f) (le : fewer ≤ more) :
    NewFragment base more f := ⟨new.1.mono le, new.2.mono le⟩

/-- The same of what has been joined, if anything. -/
def NewJoined (base : Graph) (more : Nat) (joined : Option Fragment) : Prop := ∀ f ∈ joined, NewFragment base more f

theorem NewJoined.mono {fewer more : Nat} {joined : Option Fragment} (new : NewJoined base fewer joined)
    (le : fewer ≤ more) : NewJoined base more joined := fun f member => (new f member).mono le

/-- The builder adds a fragment, wherever it is used. -/
abbrev SproutsFragment (base : Graph) (p : Build Fragment) : Prop := Sprouts base 0 p (NewFragment base)

theorem sprouts_nothing : Sprouts base known nothing (NewFragment base) :=
  sprouts_addState.bind fun _ _ _ new => sprouts_pure fun _ le => ⟨new.mono le, new.mono le⟩

theorem sprouts_text {loc : Location} {chars : List Char} : SproutsFragment base (text settings loc chars) := by
  refine (sprouts_forM fun _ _ _ _ => sprouts_admitChar).bind fun _ _ _ _ => ?_
  refine sprouts_addState.bind fun _ start _ new => ?_
  refine (sprouts_foldlM (P := New base) New.mono new fun _ current _ newCurrent c _ => ?_).bind
    fun _ stop le newStop => sprouts_pure fun _ further => ⟨new.mono (le.trans further), newStop.mono further⟩
  exact sprouts_addState.bind fun _ _ _ newNext => (sprouts_addMoves newCurrent.1).bind fun _ _ le _ =>
    sprouts_pure fun _ further => newNext.mono (le.trans further)

theorem sprouts_oneChar {ranges : List Text.CodeRange} : Sprouts base known (oneChar ranges) (NewFragment base) :=
  sprouts_addState.bind fun _ _ _ new => sprouts_addState.bind fun _ _ le newStop =>
    (sprouts_addMoves new.1).bind fun _ _ further _ => sprouts_pure fun _ last =>
      ⟨new.mono (le.trans (further.trans last)), newStop.mono (further.trans last)⟩

theorem sprouts_join {before : Option Fragment} {next : Fragment} (joined : NewJoined base known before)
    (new : NewFragment base known next) : Sprouts base known (join before next) (NewJoined base) := by
  cases before with
  | none =>
    refine sprouts_pure fun _ le f member => ?_
    obtain rfl := Option.some.inj member
    exact new.mono le
  | some f =>
    have old := joined f rfl
    refine (sprouts_linkEpsilon old.2 new.1).bind fun _ _ le _ => sprouts_pure fun _ further f' member => ?_
    obtain rfl := Option.some.inj member
    exact ⟨old.1.mono (le.trans further), new.2.mono (le.trans further)⟩

theorem sprouts_orNothing {f : Option Fragment} (joined : NewJoined base known f) :
    Sprouts base known (orNothing f) (NewFragment base) := by
  cases f with
  | none => exact sprouts_nothing
  | some f => exact sprouts_pure fun _ le => (joined f rfl).mono le

theorem newJoined_none : NewJoined base known none := fun _ member => nomatch member

theorem sprouts_inTurn {parts : List (Build Fragment)} (each : ∀ p ∈ parts, SproutsFragment base p) :
    SproutsFragment base (inTurn parts) :=
  (sprouts_foldlM (P := NewJoined base) NewJoined.mono newJoined_none fun _ _ _ joined p member =>
    (each p member).knowing.bind fun _ _ le new => sprouts_join (joined.mono le) new).bind fun _ _ _ joined => sprouts_orNothing joined

theorem sprouts_copies {part : Build Fragment} (made : SproutsFragment base part) {count : Nat}
    {before : Option Fragment} (joined : NewJoined base known before) :
    Sprouts base known (copies part count before) (NewJoined base) := by
  induction count generalizing known before with
  | zero => exact sprouts_pure fun _ le => joined.mono le
  | succ count ih => exact made.knowing.bind fun _ _ le new => (sprouts_join (joined.mono le) new).bind fun _ _ _ => ih

theorem sprouts_oneOf {parts : List (Build Fragment)} (each : ∀ p ∈ parts, SproutsFragment base p) :
    SproutsFragment base (oneOf parts) := by
  unfold oneOf
  split
  · exact each _ (by simp)
  · refine sprouts_addState.bind fun _ start _ new => sprouts_addState.bind fun _ stop le newStop => ?_
    refine (sprouts_forM fun p member _ further => ?_).bind fun _ _ further _ => sprouts_pure fun _ last =>
      ⟨new.mono (le.trans (further.trans last)), newStop.mono (further.trans last)⟩
    refine (each p member).knowing.bind fun _ f later newF => ?_
    refine (sprouts_linkEpsilon (new.mono (le.trans (further.trans later))) newF.1).bind fun _ _ last _ => ?_
    exact sprouts_linkEpsilon (newF.2.mono last) (newStop.mono (further.trans (later.trans last)))

theorem sprouts_around {skippable repeatable : Bool} {body : Build Fragment} (made : SproutsFragment base body) :
    SproutsFragment base (around skippable repeatable body) := by
  refine sprouts_addState.bind fun first start _ new => sprouts_addState.bind fun second stop le newStop => ?_
  refine made.knowing.bind fun third f le' newF => ?_
  have newStart := new.mono (le.trans le')
  have newEnd := newStop.mono le'
  have finish : ∀ more, third ≤ more → Sprouts base more (do
      linkEpsilon f.stop stop
      if repeatable then linkEpsilon f.stop f.start
      return (⟨start, stop⟩ : Fragment)) (NewFragment base) := by
    intro more further
    refine (sprouts_linkEpsilon (newF.2.mono further) (newEnd.mono further)).bind fun more' _ last _ => ?_
    have both : ∀ most, more' ≤ most → NewFragment base most ⟨start, stop⟩ := fun most le =>
      ⟨newStart.mono (further.trans (last.trans le)), newEnd.mono (further.trans (last.trans le))⟩
    cases repeatable with
    | true =>
      exact (sprouts_linkEpsilon (newF.2.mono (further.trans last)) (newF.1.mono (further.trans last))).bind
        fun _ _ le _ => sprouts_pure fun _ le' => both _ (le.trans le')
    | false => exact sprouts_pure both
  refine (sprouts_linkEpsilon newStart newF.1).bind fun more _ further _ => ?_
  cases skippable with
  | true =>
    exact (sprouts_linkEpsilon (newStart.mono further) (newEnd.mono further)).bind fun _ _ last _ =>
      finish _ (further.trans last)
  | false => exact finish _ further

theorem sprouts_repeated {body : Build Fragment} (made : SproutsFragment base body) (least : Nat)
    (most : Option Nat) : SproutsFragment base (repeated body least most) := by
  unfold repeated
  split
  · exact sprouts_around made
  · exact sprouts_around made
  · exact sprouts_around made
  · refine (sprouts_copies made newJoined_none).bind fun _ _ _ joined => ?_
    exact (sprouts_around made).knowing.bind fun _ _ le new =>
      (sprouts_join (joined.mono le) new).bind fun _ _ _ => sprouts_orNothing
  · refine (sprouts_copies made newJoined_none).bind fun _ _ _ joined => ?_
    exact (sprouts_copies (sprouts_around made) joined).bind fun _ _ _ => sprouts_orNothing

/-- Building an expression only adds states, whatever it comes to. -/
theorem sprouts_expression (depth : Nat) (active : List String) (r : Regex) :
    SproutsFragment base (expression settings depth active r) := by
  induction depth generalizing active r with
  | zero => exact sprouts_throw
  | succ depth ih =>
    cases r with
    | literal loc written => exact sprouts_text
    | charClass loc cls => exact sprouts_admittedRanges.bind fun _ _ _ _ => sprouts_oneChar
    | sequence loc parts =>
      refine sprouts_inTurn fun p member => ?_
      obtain ⟨s, _, rfl⟩ := List.mem_map.mp member
      exact ih active s
    | choice loc alternatives =>
      unfold expression
      cases spliceChoices settings.definitions active [] alternatives with
      | error fault =>
        exact sprouts_throw.bind (P := fun _ _ => False) fun _ _ _ impossible => impossible.elim
      | ok all =>
        refine (sprouts_pure (P := fun _ _ => True) fun _ _ => trivial).bind fun _ _ _ _ => ?_
        refine sprouts_gatherChars.bind fun _ gathered _ _ => (sprouts_oneOf fun p member => ?_).knowing
        obtain ⟨part, _, rfl⟩ := List.mem_map.mp member
        cases part with
        | chars => exact sprouts_oneChar
        | other s => exact ih active s
    | repetition loc body least most =>
      unfold expression
      dsimp only
      split
      · exact sprouts_throw.bind (P := fun _ _ => False) fun _ _ _ impossible => impossible.elim
      · exact sprouts_repeated (ih active body) least most
    | reference loc label =>
      unfold expression
      cases settings.definitions.lookup label with
      | none => exact sprouts_throw
      | some body =>
        dsimp only
        split
        · exact sprouts_throw
        · exact ih _ body

end Build

namespace Graph

theorem build_sprouted (g : Graph) (settings : BuildSettings) (r : Regex) :
    Sprouted g (g.build settings r).graph := by
  unfold build
  rcases Build.sprouts_expression (depthBound settings.definitions r) [] r { graph := g } .refl (Nat.zero_le _) with
    ⟨f, after, run, sprouted, _⟩ | ⟨fault, after, run, sprouted⟩
  all_goals
    rw [show (Build.expression settings (depthBound settings.definitions r) [] r).run { graph := g } = _ from run]
    exact sprouted

end Graph

end TokenTables.Automaton
