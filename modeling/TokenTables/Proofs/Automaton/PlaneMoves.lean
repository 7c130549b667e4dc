import TokenTables.Proofs.Automaton.Expression
import TokenTables.Proofs.Text.Case

/-!
Moves stay in the Basic Multilingual Plane. Every character written in a grammar is checked, case forms of checked
characters and complements of classes do not leave the plane, and so no builder adds a move beyond it, also one that
stops at a fault.
-/

namespace TokenTables.Automaton

open Text (CodeRange)

namespace Moves

/-- No move is on a code beyond the plane. -/
structure InPlane (m : Moves) : Prop where
  singles : ∀ code ∈ m.singles, code ≤ Text.lastCode
  ranges : ∀ r ∈ m.ranges, r.last ≤ Text.lastCode

variable {m other : Moves}

theorem inPlane_empty : ({} : Moves).InPlane := ⟨by simp, by simp⟩

theorem InPlane.addCode (inPlane : m.InPlane) {code : Nat} (small : code ≤ Text.lastCode) : (m.addCode code).InPlane := by
  unfold Moves.addCode
  split
  · exact ⟨inPlane.singles, inPlane.ranges⟩
  · refine ⟨fun q member => ?_, inPlane.ranges⟩
    rcases mem_insertNat.mp member with rfl | old
    · exact small
    · exact inPlane.singles q old

theorem InPlane.addBeyond (inPlane : m.InPlane) {r : CodeRange} (small : r.last ≤ Text.lastCode) :
    (m.addBeyond r).InPlane := by
  refine ⟨inPlane.singles, fun q member => ?_⟩
  rcases mem_insertOrdered.mp member with rfl | old
  · exact small
  · exact inPlane.ranges q old

theorem InPlane.addRange (inPlane : m.InPlane) {r : CodeRange} (small : r.last ≤ Text.lastCode) :
    (m.addRange r).InPlane := by
  have ascii : (m.addAscii r).InPlane := ⟨inPlane.singles, inPlane.ranges⟩
  rw [addRange_eq]
  split
  · exact inPlane
  · split
    · exact ascii
    · split
      · exact ascii.addCode small
      · exact ascii.addBeyond small

theorem InPlane.addRanges (inPlane : m.InPlane) {ranges : List CodeRange} (small : ∀ r ∈ ranges, r.last ≤ Text.lastCode) :
    (m.addRanges ranges).InPlane :=
  List.foldlRecOn ranges _ inPlane fun _ before r member => before.addRange (small r member)

theorem InPlane.addCodes (inPlane : m.InPlane) {codes : List Nat} (small : ∀ code ∈ codes, code ≤ Text.lastCode) :
    (codes.foldl Moves.addCode m).InPlane :=
  List.foldlRecOn codes _ inPlane fun _ before code member => before.addCode (small code member)

theorem InPlane.union (inPlane : m.InPlane) (otherInPlane : other.InPlane) : (m.union other).InPlane := by
  rw [union_eq]
  have ascii : (m.uniteAscii other).InPlane := ⟨inPlane.singles, inPlane.ranges⟩
  exact (ascii.addCodes otherInPlane.singles).addRanges otherInPlane.ranges

/-- Nothing beyond the plane is accepted. -/
theorem InPlane.code_le (inPlane : m.InPlane) {code : Nat} (accepts : m.acceptsCode code = true) :
    code ≤ Text.lastCode := by
  unfold acceptsCode at accepts
  split at accepts
  · rename_i ascii
    exact (Nat.le_of_lt ascii).trans (by decide)
  · rcases Bool.or_eq_true _ _ |>.mp accepts with single | range
    · exact inPlane.singles code (List.contains_iff_mem.mp single)
    · obtain ⟨r, member, holds⟩ := List.any_eq_true.mp range
      exact (Text.CodeRange.contains_iff.mp holds).2.trans (inPlane.ranges r member)

end Moves

namespace Graph

/-- No state moves on a code beyond the plane. -/
def InPlane (g : Graph) : Prop := ∀ s : Nat, (g.state s).moves.InPlane

variable {g : Graph}

theorem inPlane_empty : InPlane {} := fun s => by
  rw [state_of_size_le (Nat.zero_le s)]
  exact Moves.inPlane_empty

theorem InPlane.addState (inPlane : g.InPlane) {new : State} (newInPlane : new.moves.InPlane) :
    (g.addState new).InPlane := fun s => by
  rw [state_addState]
  split
  · exact newInPlane
  · exact inPlane s

theorem InPlane.alter (inPlane : g.InPlane) {id : StateId} {change : State → State}
    (keeps : (g.state id).moves.InPlane → (change (g.state id)).moves.InPlane) : (g.alter id change).InPlane := fun s => by
  rw [state_alter]
  split
  · exact keeps (inPlane id)
  · exact inPlane s

end Graph

namespace Build

open TokenTables.Automaton.Graph (InPlane)

variable {α β : Type} {settings : BuildSettings}

/-- The builder adds no move beyond the plane, even if it stops at a fault; what holds of its result if it does not. -/
def StaysInPlane (p : Build α) (P : α → Prop) : Prop :=
  ∀ c, c.graph.InPlane →
    (∃ a after, p c = .ok a after ∧ after.graph.InPlane ∧ P a) ∨
    ∃ fault after, p c = .error fault after ∧ after.graph.InPlane

/-- Nothing is said about the result. -/
abbrev StaysInPlaneOnly (p : Build α) : Prop := StaysInPlane p fun _ => True

theorem StaysInPlane.bind {p : Build α} {f : α → Build β} {P : α → Prop} {result : β → Prop}
    (first : StaysInPlane p P) (rest : ∀ a, P a → StaysInPlane (f a) result) : StaysInPlane (p >>= f) result := by
  intro c inPlane
  show (∃ b after, EStateM.bind p f c = .ok b after ∧ _) ∨ ∃ fault after, EStateM.bind p f c = .error fault after ∧ _
  unfold EStateM.bind
  rcases first c inPlane with ⟨a, between, run, inPlaneThen, holds⟩ | ⟨fault, between, run, inPlaneThen⟩
  · rw [run]
    exact rest a holds between inPlaneThen
  · rw [run]
    exact .inr ⟨fault, between, rfl, inPlaneThen⟩

theorem staysInPlane_pure {a : α} {P : α → Prop} (holds : P a) : StaysInPlane (pure a) P :=
  fun c inPlane => .inl ⟨a, c, rfl, inPlane, holds⟩

theorem staysInPlane_throw {fault : RegexFault} {P : α → Prop} : StaysInPlane (throw fault) P :=
  fun c inPlane => .inr ⟨fault, c, rfl, inPlane⟩

theorem staysInPlane_addState : StaysInPlaneOnly addState :=
  fun c inPlane => .inl ⟨c.graph.size, _, rfl, inPlane.addState Moves.inPlane_empty, trivial⟩

theorem staysInPlane_linkEpsilon {source target : StateId} : StaysInPlaneOnly (linkEpsilon source target) :=
  fun _ inPlane => .inl ⟨(), _, rfl, inPlane.alter id, trivial⟩

theorem staysInPlane_addMoves {source target : StateId} {more : Moves → Moves}
    (keeps : ∀ m : Moves, m.InPlane → (more m).InPlane) : StaysInPlaneOnly (addMoves source target more) :=
  fun _ inPlane => .inl ⟨(), _, rfl, inPlane.alter (keeps _), trivial⟩

theorem staysInPlane_foldlM {f : β → α → Build β} {P : β → Prop} {xs : List α} {b : β} (begins : P b)
    (each : ∀ b, P b → ∀ a ∈ xs, StaysInPlane (f b a) P) : StaysInPlane (xs.foldlM f b) P := by
  induction xs generalizing b with
  | nil => exact staysInPlane_pure begins
  | cons a rest ih =>
    rw [List.foldlM_cons]
    exact (each b begins a List.mem_cons_self).bind fun next holds =>
      ih holds fun b holds a member => each b holds a (List.mem_cons_of_mem _ member)

theorem staysInPlane_forM {f : α → Build Unit} {P : α → Prop} {xs : List α}
    (each : ∀ a ∈ xs, StaysInPlane (f a) fun _ => P a) : StaysInPlane (xs.forM f) fun _ => ∀ a ∈ xs, P a := by
  induction xs with
  | nil => exact staysInPlane_pure fun a member => nomatch member
  | cons a rest ih =>
    refine (each a List.mem_cons_self).bind fun _ here => ?_
    intro c inPlane
    refine (ih (fun b member => each b (List.mem_cons_of_mem _ member)) c inPlane).imp_left ?_
    rintro ⟨u, after, run, inPlaneThen, later⟩
    exact ⟨u, after, run, inPlaneThen, List.forall_mem_cons.mpr ⟨here, later⟩⟩

/-! ### Checks -/

theorem staysInPlane_admitChar {loc : Location} {c : Char} :
    StaysInPlane (admitChar settings loc c) fun _ => c.toNat ≤ Text.lastCode := by
  unfold admitChar
  split
  · exact staysInPlane_throw
  · rename_i small
    split
    · exact fun _ inPlane => .inl ⟨(), _, rfl, inPlane, Nat.le_of_not_lt small⟩
    · exact staysInPlane_pure (Nat.le_of_not_lt small)

theorem staysInPlane_admitItem {loc : Location} {item : ClassPart} : StaysInPlane (admitItem settings loc item)
    fun _ => item.first ≤ item.last ∧ item.last.toNat ≤ Text.lastCode := by
  unfold admitItem
  split
  · exact staysInPlane_throw.bind (P := fun _ => False) fun _ impossible => impossible.elim
  · rename_i ordered
    intro c inPlane
    refine (staysInPlane_admitChar c inPlane).imp_left ?_
    rintro ⟨u, after, run, inPlaneThen, small⟩
    exact ⟨u, after, run, inPlaneThen, Char.not_lt.mp ordered, small⟩

/-- Ranges in the plane. -/
def SmallRanges (ranges : List CodeRange) : Prop := ∀ r ∈ ranges, r.last ≤ Text.lastCode

theorem staysInPlane_admittedRanges {loc : Location} {cls : CharClass} :
    StaysInPlane (admittedRanges settings loc cls) SmallRanges :=
  (staysInPlane_forM fun _ _ => staysInPlane_admitItem).bind fun _ admitted =>
    staysInPlane_pure (acceptedRanges_le admitted)

/-- The same of what has been gathered, if anything. -/
def SmallGathered (ranges : Option (List CodeRange)) : Prop := ∀ known ∈ ranges, SmallRanges known

theorem smallGathered_none : SmallGathered none := fun _ member => nomatch member

theorem smallGathered_some {ranges : List CodeRange} (small : SmallRanges ranges) : SmallGathered (some ranges) := by
  intro known member
  obtain rfl := Option.some.inj member
  exact small

theorem staysInPlane_gatherChars {alternatives : List Regex} :
    StaysInPlane (gatherChars settings alternatives) fun gathered => SmallRanges gathered.2 := by
  rw [gatherChars_eq]
  refine (staysInPlane_foldlM (P := fun gathered => SmallGathered gathered.2) smallGathered_none
    fun gathered small r _ => ?_).bind fun gathered small => staysInPlane_pure ?_
  · unfold gatherOne
    cases singleChars? r with
    | none => exact staysInPlane_pure small
    | some cls =>
      refine staysInPlane_admittedRanges.bind fun more smallMore => ?_
      cases found : gathered.2 with
      | none => exact staysInPlane_pure (smallGathered_some smallMore)
      | some before =>
        exact staysInPlane_pure (smallGathered_some (List.forall_mem_append.mpr ⟨small before found, smallMore⟩))
  · refine Text.CodeRange.normalize_le ?_
    cases found : gathered.2 with
    | none => exact fun _ member => nomatch member
    | some ranges => exact small ranges found

/-! ### Fragments -/

theorem staysInPlane_nothing : StaysInPlaneOnly nothing := staysInPlane_addState.bind fun _ _ => staysInPlane_pure trivial

theorem variants_le {ignoreCase : Bool} {c : Char} (small : c.toNat ≤ Text.lastCode) :
    ∀ code ∈ (variants ignoreCase c).map Char.toNat, code ≤ Text.lastCode := by
  intro code member
  obtain ⟨v, isVariant, rfl⟩ := List.mem_map.mp member
  cases ignoreCase with
  | false =>
    obtain rfl := List.mem_singleton.mp isVariant
    exact small
  | true => exact Text.caseForms_le small isVariant

theorem staysInPlane_text {loc : Location} {chars : List Char} : StaysInPlaneOnly (text settings loc chars) := by
  refine (staysInPlane_forM fun _ _ => staysInPlane_admitChar).bind fun _ small => ?_
  refine staysInPlane_addState.bind fun start _ => ?_
  refine (staysInPlane_foldlM (P := fun _ => True) trivial fun current _ c member => ?_).bind
    fun _ _ => staysInPlane_pure trivial
  refine staysInPlane_addState.bind fun next _ => (staysInPlane_addMoves fun m inPlane => ?_).bind
    fun _ _ => staysInPlane_pure trivial
  have added := inPlane.addCodes (@variants_le settings.ignoreCase c (small c member))
  rwa [List.foldl_map] at added

theorem staysInPlane_oneChar {ranges : List CodeRange} (small : SmallRanges ranges) : StaysInPlaneOnly (oneChar ranges) := by
  refine staysInPlane_addState.bind fun _ _ => staysInPlane_addState.bind fun _ _ =>
    (staysInPlane_addMoves fun m inPlane => inPlane.addRanges fun part member => ?_).bind fun _ _ => staysInPlane_pure trivial
  obtain ⟨r, inside, isPart⟩ := List.mem_flatMap.mp member
  exact (Text.CodeRange.outsideSurrogates_le isPart).trans (small r inside)

theorem staysInPlane_join {before : Option Fragment} {next : Fragment} : StaysInPlaneOnly (join before next) := by
  cases before with
  | none => exact staysInPlane_pure trivial
  | some f => exact staysInPlane_linkEpsilon.bind fun _ _ => staysInPlane_pure trivial

theorem staysInPlane_orNothing {f : Option Fragment} : StaysInPlaneOnly (orNothing f) := by
  cases f with
  | none => exact staysInPlane_nothing
  | some f => exact staysInPlane_pure trivial

variable {body : Build Fragment} {parts : List (Build Fragment)}

theorem staysInPlane_inTurn (each : ∀ p ∈ parts, StaysInPlaneOnly p) : StaysInPlaneOnly (inTurn parts) :=
  (staysInPlane_foldlM trivial fun _ _ p member => (each p member).bind fun _ _ => staysInPlane_join).bind
    fun _ _ => staysInPlane_orNothing

theorem staysInPlane_copies (stays : StaysInPlaneOnly body) {count : Nat} {before : Option Fragment} :
    StaysInPlaneOnly (copies body count before) := by
  induction count generalizing before with
  | zero => exact staysInPlane_pure trivial
  | succ count ih => exact stays.bind fun _ _ => staysInPlane_join.bind fun _ _ => ih

theorem staysInPlane_oneOf (each : ∀ p ∈ parts, StaysInPlaneOnly p) : StaysInPlaneOnly (oneOf parts) := by
  unfold oneOf
  split
  · exact each _ (by simp)
  · refine staysInPlane_addState.bind fun _ _ => staysInPlane_addState.bind fun _ _ => ?_
    refine (staysInPlane_forM (P := fun _ => True) fun p member => ?_).bind fun _ _ => staysInPlane_pure trivial
    exact (each p member).bind fun _ _ => staysInPlane_linkEpsilon.bind fun _ _ => staysInPlane_linkEpsilon

theorem staysInPlane_around {skippable repeatable : Bool} (stays : StaysInPlaneOnly body) :
    StaysInPlaneOnly (around skippable repeatable body) := by
  refine staysInPlane_addState.bind fun start _ => staysInPlane_addState.bind fun stop _ => stays.bind fun f _ => ?_
  have finish : StaysInPlaneOnly (do
      linkEpsilon f.stop stop
      if repeatable then linkEpsilon f.stop f.start
      return (⟨start, stop⟩ : Fragment)) := by
    refine staysInPlane_linkEpsilon.bind fun _ _ => ?_
    cases repeatable with
    | true => exact staysInPlane_linkEpsilon.bind fun _ _ => staysInPlane_pure trivial
    | false => exact staysInPlane_pure trivial
  refine staysInPlane_linkEpsilon.bind fun _ _ => ?_
  cases skippable with
  | true => exact staysInPlane_linkEpsilon.bind fun _ _ => finish
  | false => exact finish

theorem staysInPlane_repeated (stays : StaysInPlaneOnly body) (least : Nat) (most : Option Nat) :
    StaysInPlaneOnly (repeated body least most) := by
  unfold repeated
  split
  · exact staysInPlane_around stays
  · exact staysInPlane_around stays
  · exact staysInPlane_around stays
  · exact (staysInPlane_copies stays).bind fun _ _ => (staysInPlane_around stays).bind fun _ _ =>
      staysInPlane_join.bind fun _ _ => staysInPlane_orNothing
  · exact (staysInPlane_copies stays).bind fun _ _ => (staysInPlane_copies (staysInPlane_around stays)).bind
      fun _ _ => staysInPlane_orNothing

/-- Building an expression adds no move beyond the plane, whatever it comes to. -/
theorem staysInPlane_expression (depth : Nat) (active : List String) (r : Regex) :
    StaysInPlaneOnly (expression settings depth active r) := by
  induction depth generalizing active r with
  | zero => exact staysInPlane_throw
  | succ depth ih =>
    cases r with
    | literal loc written => exact staysInPlane_text
    | charClass loc cls => exact staysInPlane_admittedRanges.bind fun _ => staysInPlane_oneChar
    | sequence loc parts =>
      refine staysInPlane_inTurn fun p member => ?_
      obtain ⟨s, _, rfl⟩ := List.mem_map.mp member
      exact ih active s
    | choice loc alternatives =>
      unfold expression
      cases spliceChoices settings.definitions active [] alternatives with
      | error fault => exact staysInPlane_throw.bind (P := fun _ => False) fun _ impossible => impossible.elim
      | ok all =>
        refine (staysInPlane_pure (P := fun _ => True) trivial).bind fun _ _ => ?_
        refine staysInPlane_gatherChars.bind fun gathered small => staysInPlane_oneOf fun p member => ?_
        obtain ⟨part, _, rfl⟩ := List.mem_map.mp member
        cases part with
        | chars => exact staysInPlane_oneChar small
        | other s => exact ih active s
    | repetition loc body least most =>
      unfold expression
      dsimp only
      split
      · exact staysInPlane_throw.bind (P := fun _ => False) fun _ impossible => impossible.elim
      · exact staysInPlane_repeated (ih active body) least most
    | reference loc label =>
      unfold expression
      cases settings.definitions.lookup label with
      | none => exact staysInPlane_throw
      | some body =>
        dsimp only
        split
        · exact staysInPlane_throw
        · exact ih _ body

end Build

namespace Graph

variable {g : Graph}

theorem InPlane.build (inPlane : g.InPlane) (settings : BuildSettings) (r : Regex) :
    (g.build settings r).graph.InPlane := by
  unfold Graph.build
  rcases Build.staysInPlane_expression (depthBound settings.definitions r) [] r { graph := g } inPlane with
    ⟨f, after, run, inPlaneThen, _⟩ | ⟨fault, after, run, inPlaneThen⟩
  all_goals
    rw [show (Build.expression settings (depthBound settings.definitions r) [] r).run { graph := g } = _ from run]
    exact inPlaneThen

end Graph

end TokenTables.Automaton
