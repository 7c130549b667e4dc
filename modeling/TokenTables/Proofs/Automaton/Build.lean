import TokenTables.Automaton.Fragment
import TokenTables.Proofs.Automaton.CharRanges
import TokenTables.Proofs.Automaton.Construction
import TokenTables.Proofs.Regex.Language

/-!
The combinators that build fragments. Whenever one comes through, it has added a fragment whose language is
put together from those of its parts.
-/

namespace TokenTables.Automaton.Build

open TokenTables.Automaton.Graph
open Text (CodeRange)
open Text.CodeRange (Covers)

variable {α β : Type} {c c' : Construction}

/-! ### Runs that come through -/

theorem bind_ok {x : Build α} {f : α → Build β} {b : β} (run : (x >>= f) c = .ok b c') :
    ∃ a between, x c = .ok a between ∧ f a between = .ok b c' := by
  change EStateM.bind x f c = .ok b c' at run
  unfold EStateM.bind at run
  cases first : x c with
  | ok a between =>
    rw [first] at run
    exact ⟨a, between, rfl, run⟩
  | error fault between =>
    rw [first] at run
    cases run

theorem ok_bind {x : Build α} {f : α → Build β} {a : α} {b : β} {between : Construction}
    (first : x c = .ok a between) (rest : f a between = .ok b c') : (x >>= f) c = .ok b c' := by
  show EStateM.bind x f c = .ok b c'
  unfold EStateM.bind
  rw [first]
  exact rest

theorem pure_ok {a b : α} (run : (pure a : Build α) c = .ok b c') : b = a ∧ c' = c := by
  cases run
  exact ⟨rfl, rfl⟩

theorem addState_ok {id : Nat} (run : addState c = .ok id c') :
    id = c.graph.size ∧ c'.graph = c.graph.addState {} := by
  cases run
  exact ⟨rfl, rfl⟩

theorem linkEpsilon_ok {source target : Nat} {u : Unit} (run : linkEpsilon source target c = .ok u c') :
    c'.graph = c.graph.linkEpsilon source target := by
  cases run
  rfl

theorem addMoves_ok {source target : Nat} {more : Moves → Moves} {u : Unit}
    (run : addMoves source target more c = .ok u c') :
    c'.graph = c.graph.alter source fun s => { s with moves := more s.moves, next := some target } := by
  cases run
  rfl

theorem admitChar_ok {settings : BuildSettings} {loc : Location} {written : Char} {u : Unit}
    (run : admitChar settings loc written c = .ok u c') :
    c'.graph = c.graph ∧ written.toNat ≤ Text.lastCode := by
  unfold admitChar at run
  split at run
  · cases run
  · rename_i small
    split at run
    · cases run
      exact ⟨rfl, Nat.le_of_not_lt small⟩
    · cases run
      exact ⟨rfl, Nat.le_of_not_lt small⟩

theorem admitItem_ok {settings : BuildSettings} {loc : Location} {item : ClassPart} {u : Unit}
    (run : admitItem settings loc item c = .ok u c') :
    c'.graph = c.graph ∧ item.first ≤ item.last ∧ item.last.toNat ≤ Text.lastCode := by
  unfold admitItem at run
  split at run
  · cases run
  · rename_i ordered
    obtain ⟨same, small⟩ := admitChar_ok run
    exact ⟨same, Char.not_lt.mp ordered, small⟩

/-- Checks that come through one after the other leave the graph alone. -/
theorem forM_ok {check : α → Build Unit} {xs : List α} {u : Unit} (admits : α → Prop)
    (each : ∀ a c u c', check a c = .ok u c' → c'.graph = c.graph ∧ admits a)
    (run : xs.forM check c = .ok u c') : c'.graph = c.graph ∧ ∀ a ∈ xs, admits a := by
  induction xs generalizing c with
  | nil =>
    cases run
    exact ⟨rfl, fun a member => nomatch member⟩
  | cons a rest ih =>
    obtain ⟨_, between, first, others⟩ := bind_ok run
    obtain ⟨same, admitted⟩ := each _ _ _ _ first
    obtain ⟨sameRest, admittedRest⟩ := ih others
    refine ⟨sameRest.trans same, fun b member => ?_⟩
    rcases List.mem_cons.mp member with rfl | later
    · exact admitted
    · exact admittedRest b later

theorem admittedRanges_ok {settings : BuildSettings} {loc : Location} {cls : CharClass}
    {ranges : List CodeRange} (run : admittedRanges settings loc cls c = .ok ranges c') :
    c'.graph = c.graph ∧ Admitted cls ∧ ranges = acceptedRanges settings.ignoreCase cls := by
  obtain ⟨_, between, checks, rest⟩ := bind_ok run
  obtain ⟨same, admitted⟩ := forM_ok (fun item : ClassPart => item.first ≤ item.last ∧ item.last.toNat ≤ Text.lastCode)
    (fun _ _ _ _ => admitItem_ok) checks
  obtain ⟨result, last⟩ := pure_ok rest
  rw [last]
  exact ⟨same, admitted, result⟩

/-! ### Fragments -/

/-- What a builder adds, if it comes through, is a fragment for the texts. -/
def Makes (p : Build Fragment) (texts : Language Char) : Prop :=
  ∀ c f c', p c = .ok f c' → f.start = c.graph.size ∧ Constructed c.graph c'.graph f.stop texts

theorem nothing_makes : Makes nothing 1 := by
  intro c f c' run
  obtain ⟨only, between, added, rest⟩ := bind_ok run
  obtain ⟨rfl, graph⟩ := addState_ok added
  obtain ⟨rfl, rfl⟩ := pure_ok rest
  rw [graph]
  refine ⟨rfl, .addState unmarked_blank, ?_, by simp⟩
  rw [size_addState]
  exact .nothing (by simp; exact ⟨rfl, rfl⟩)

theorem reads_addRanges (ranges : List CodeRange) :
    reads (({} : Moves).addRanges (ranges.flatMap CodeRange.outsideSurrogates)) =
      singles fun c => Covers ranges c.toNat := by
  refine singles_congr fun c => ?_
  have part : ∀ r : CodeRange, Covers r.outsideSurrogates c.toNat ↔ r.contains c.toNat = true := fun r =>
    Text.CodeRange.covers_outsideSurrogates (Text.CodeRange.toNat_not_surrogate c)
  rw [Moves.accepts, Moves.acceptsCode_addRanges Moves.valid_empty, Moves.acceptsCode_empty,
    Text.CodeRange.covers_flatMap]
  simp only [part, Bool.false_eq_true, or_false]
  exact Iff.rfl

theorem oneChar_makes (ranges : List CodeRange) : 
    Makes (oneChar ranges) (singles fun c => Covers ranges c.toNat) := by
  intro c f c' run
  obtain ⟨start, c₁, first, rest⟩ := bind_ok run
  obtain ⟨stop, c₂, second, rest⟩ := bind_ok rest
  obtain ⟨_, c₃, moved, rest⟩ := bind_ok rest
  obtain ⟨rfl, graph₁⟩ := addState_ok first
  obtain ⟨rfl, graph₂⟩ := addState_ok second
  have graph₃ := addMoves_ok moved
  obtain ⟨rfl, rfl⟩ := pure_ok rest
  rw [graph₂, graph₁] at graph₃
  have stopIs : c₁.graph.size = c.graph.size + 1 := by simp [graph₁]
  rw [size_addState] at graph₃
  have startState : c'.graph.state c.graph.size =
      { moves := ({} : Moves).addRanges (ranges.flatMap CodeRange.outsideSurrogates),
        next := some (c.graph.size + 1) } := by
    rw [graph₃, state_alter_same (by rw [size_addState, size_addState]; omega)]
    simp
  have stopState : c'.graph.state (c.graph.size + 1) = {} := by
    rw [graph₃, state_alter_other (by omega)]
    simp
  have size : c'.graph.size = c.graph.size + 1 + 1 := by simp [graph₃]
  refine ⟨rfl, ?_, ?_, ?_⟩
  · rw [graph₃]
    refine Grown.alter ((Grown.addState unmarked_blank).trans (.addState unmarked_blank)) (Nat.le_refl _) ?_
    intro s blank
    unfold Unmarked at blank ⊢
    rw [blank]
  · have last : Shape c'.graph (c.graph.size + 1) (c.graph.size + 1) (c.graph.size + 1 + 1) 1 :=
      .nothing (by rw [stopState]; exact ⟨rfl, rfl⟩)
    have whole := @Shape.char c'.graph c.graph.size _ _ _ (by rw [startState])
      (by rw [startState]; exact Moves.valid_addRanges Moves.valid_empty) (by rw [startState]) last
    rw [startState, reads_addRanges, mul_one] at whole
    rw [size]
    show Shape c'.graph c.graph.size c₁.graph.size _ _
    rw [stopIs]
    exact whole
  · show (c'.graph.state c₁.graph.size).epsilon = []
    rw [stopIs, stopState]

/-- The texts spelled as written. -/
def spelled (ignoreCase : Bool) (written : List Char) : Language Char :=
  {text | Regex.SpelledAs ignoreCase text written}

theorem spelled_nil {ignoreCase : Bool} : spelled ignoreCase [] = 1 := by
  ext text
  rw [Language.mem_one]
  show Regex.SpelledAs ignoreCase text [] ↔ text = []
  cases text with
  | nil => simp [Regex.SpelledAs]
  | cons c rest => simp [Regex.SpelledAs]

theorem spelled_cons {ignoreCase : Bool} {first : Char} {rest : List Char} :
    spelled ignoreCase (first :: rest) =
      singles (fun c => if ignoreCase then c ∈ Text.caseForms first else c = first) *
        spelled ignoreCase rest := by
  ext text
  rw [Language.mem_mul]
  cases text with
  | nil =>
    constructor
    · exact False.elim
    · rintro ⟨_, ⟨c, rfl, _⟩, _, _, same⟩
      cases same
  | cons c more =>
    constructor
    · rintro ⟨here, after⟩
      exact ⟨[c], ⟨c, rfl, here⟩, more, after, rfl⟩
    · rintro ⟨_, ⟨d, rfl, here⟩, after, spelledAfter, same⟩
      obtain ⟨rfl, rfl⟩ := List.cons.inj same
      exact ⟨here, spelledAfter⟩

/-- The characters that a written one stands for. -/
def variants (ignoreCase : Bool) (c : Char) : List Char := if ignoreCase then Text.caseForms c else [c]

theorem reads_variants {ignoreCase : Bool} {c : Char} :
    reads ((variants ignoreCase c).foldl (fun m v => m.addCode v.toNat) {}) =
      singles fun v => if ignoreCase then v ∈ Text.caseForms c else v = c := by
  refine singles_congr fun v => ?_
  have mapped : (variants ignoreCase c).foldl (fun m v => m.addCode v.toNat) ({} : Moves) =
      ((variants ignoreCase c).map Char.toNat).foldl Moves.addCode {} := by rw [List.foldl_map]
  rw [mapped, Moves.accepts, Moves.acceptsCode_foldl_addCode Moves.valid_empty, Moves.acceptsCode_empty]
  simp only [List.mem_map, Char.toNat_inj, exists_eq_right, Bool.false_eq_true, or_false, variants]
  cases ignoreCase with
  | false => simp
  | true => simp

/-- One link of a chain: a state after `current`, and the moves to it. -/
def link (ignoreCase : Bool) (current : StateId) (c : Char) : Build StateId := do
  let next ← addState
  addMoves current next fun m => (variants ignoreCase c).foldl (fun m v => m.addCode v.toNat) m
  return next

/-- A chain goes on from the last state of a graph. -/
theorem chain_ok {ignoreCase : Bool} {chars : List Char} {current stop : Nat}
    (last : current + 1 = c.graph.size) (blank : c.graph.state current = {})
    (run : chars.foldlM (link ignoreCase) current c = .ok stop c') :
    Shape c'.graph current stop c'.graph.size (spelled ignoreCase chars) ∧
      (c'.graph.state stop).epsilon = [] ∧
      (∀ before : Graph, before.size ≤ current → Grown before c.graph → Grown before c'.graph) ∧
      ∀ s : Nat, s < current → c'.graph.state s = c.graph.state s := by
  induction chars generalizing c current with
  | nil =>
    obtain ⟨rfl, rfl⟩ := pure_ok run
    rw [← last, spelled_nil, blank]
    exact ⟨.nothing (by rw [blank]; exact ⟨rfl, rfl⟩), rfl, fun before _ grown => grown, fun _ _ => rfl⟩
  | cons first rest ih =>
    obtain ⟨next, c₃, linked, others⟩ := bind_ok run
    obtain ⟨_, c₁, added, linked⟩ := bind_ok linked
    obtain ⟨_, c₂, moved, linked⟩ := bind_ok linked
    obtain ⟨rfl, graph₁⟩ := addState_ok added
    have graph₂ := addMoves_ok moved
    obtain ⟨rfl, rfl⟩ := pure_ok linked
    rw [graph₁] at graph₂
    have size : c₃.graph.size = c.graph.size + 1 := by simp [graph₂]
    have nextBlank : c₃.graph.state c.graph.size = {} := by
      rw [graph₂, state_alter_other (by omega)]
      simp
    obtain ⟨shape, loose, grows, kept⟩ := ih size.symm nextBlank others
    have here : c'.graph.state current =
        { moves := (variants ignoreCase first).foldl (fun m v => m.addCode v.toNat) {},
          next := some (current + 1) } := by
      rw [kept current (by omega), graph₂, state_alter_same (by simp; omega), state_addState,
        if_neg (by omega), blank, last]
    refine ⟨?_, loose, fun before old grown => ?_, fun s low => ?_⟩
    · have valid : (c'.graph.state current).moves.Valid := by
        rw [here, ← List.foldl_map]
        exact Moves.valid_foldl_addCode Moves.valid_empty
      rw [← last] at shape
      have whole := @Shape.char c'.graph current stop _ _ (by rw [here]) valid (by rw [here]) shape
      rwa [here, reads_variants, ← spelled_cons] at whole
    · refine grows before (by omega) ?_
      rw [graph₂]
      refine (grown.trans (.addState unmarked_blank)).alter old fun s unmarked => ?_
      unfold Unmarked at unmarked ⊢
      rw [unmarked]
    · rw [kept s (by omega), graph₂, state_alter_other (by omega), state_addState, if_neg (by omega)]

theorem text_makes (settings : BuildSettings) (loc : Location) (chars : List Char) :
    Makes (text settings loc chars) (spelled settings.ignoreCase chars) := by
  intro c f c' run
  obtain ⟨_, c₁, checks, rest⟩ := bind_ok run
  obtain ⟨same, _⟩ := forM_ok (fun w : Char => w.toNat ≤ Text.lastCode) (fun _ _ _ _ => admitChar_ok) checks
  obtain ⟨start, c₂, added, rest⟩ := bind_ok rest
  obtain ⟨rfl, graph⟩ := addState_ok added
  obtain ⟨stop, c₃, chain, rest⟩ := bind_ok rest
  obtain ⟨rfl, rfl⟩ := pure_ok rest
  rw [same] at graph chain
  obtain ⟨shape, loose, grows, _⟩ :=
    chain_ok (c := c₂) (by simp [graph]) (by simp [graph]) chain
  refine ⟨congrArg Graph.size same, ?_, shape, loose⟩
  refine grows _ (Nat.le_refl _) ?_
  rw [graph]
  exact .addState unmarked_blank

end TokenTables.Automaton.Build
