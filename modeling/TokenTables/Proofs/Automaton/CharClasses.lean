import Mathlib
import TokenTables.Proofs.Automaton.Expression

/-!
Character classes from their items to the moves of a state. The ranges of a class ascend with gaps between them, also
after they were turned around or put together with those of other classes, and the state that moves on them accepts the
characters of the classes and no others.
-/

namespace TokenTables.Automaton

open Text (CodeRange lastCode)
open Text.CodeRange (Covers Gapped Proper)

/-- Ascending ranges of the plane that neither overlap nor touch. -/
structure Normal (ranges : List CodeRange) : Prop where
  proper : Proper ranges
  gapped : Gapped ranges
  inPlane : ∀ r ∈ ranges, r.last ≤ lastCode

theorem normal_normalize {ranges : List CodeRange} (proper : Proper ranges) (inPlane : ∀ r ∈ ranges, r.last ≤ lastCode) :
    Normal (CodeRange.normalize ranges) := by
  obtain ⟨gapped, filled⟩ := Text.CodeRange.normalize_gapped proper
  exact ⟨filled, gapped, Text.CodeRange.normalize_le inPlane⟩

theorem complementFrom_gapped {start : Nat} {ranges : List CodeRange} (proper : Proper ranges) (gapped : Gapped ranges)
    (above : ∀ r ∈ ranges, start ≤ r.first) :
    Proper (CodeRange.complementFrom start ranges) ∧ Gapped (CodeRange.complementFrom start ranges) ∧
      ∀ r ∈ CodeRange.complementFrom start ranges, start ≤ r.first := by
  induction ranges generalizing start with
  | nil =>
    unfold CodeRange.complementFrom
    split <;> simp [Proper, Gapped, *]
  | cons q rest ih =>
    obtain ⟨apart, gappedRest⟩ := List.pairwise_cons.mp gapped
    have filled : q.first ≤ q.last := proper q List.mem_cons_self
    have begins : start ≤ q.first := above q List.mem_cons_self
    obtain ⟨properTail, gappedTail, aboveTail⟩ := @ih (q.last + 1)
      (fun r member => proper r (List.mem_cons_of_mem _ member)) gappedRest
      fun r member => Nat.le_of_lt (apart r member)
    unfold CodeRange.complementFrom
    split
    · refine ⟨fun r member => ?_, List.pairwise_cons.mpr ⟨fun r member => ?_, gappedTail⟩, fun r member => ?_⟩
      · rcases List.mem_cons.mp member with rfl | later
        · show start ≤ q.first - 1
          omega
        · exact properTail r later
      · have := aboveTail r member
        show q.first - 1 + 1 < r.first
        omega
      · rcases List.mem_cons.mp member with rfl | later
        · exact Nat.le_refl start
        · have := aboveTail r later
          omega
    · refine ⟨properTail, gappedTail, fun r member => ?_⟩
      have := aboveTail r member
      omega

theorem Normal.complement {ranges : List CodeRange} (normal : Normal ranges) : Normal (CodeRange.complement ranges) := by
  obtain ⟨proper, gapped, _⟩ := complementFrom_gapped normal.proper normal.gapped fun r _ => Nat.zero_le r.first
  exact ⟨proper, gapped, Text.CodeRange.complementFrom_le normal.proper normal.inPlane⟩

/-- The ranges of a class are normal, whether it is negated or not. -/
theorem normal_acceptedRanges {ignoreCase : Bool} {cls : CharClass} (admitted : Admitted cls) :
    Normal (acceptedRanges ignoreCase cls) := by
  have named := normal_normalize (@namedRanges_proper ignoreCase cls admitted) (namedRanges_le admitted)
  unfold acceptedRanges
  dsimp only
  split
  · exact named.complement
  · exact named

theorem Normal.covers_complement {ranges : List CodeRange} (normal : Normal ranges) {code : Nat} :
    Covers (CodeRange.complement ranges) code ↔ code ≤ lastCode ∧ ¬ Covers ranges code :=
  Text.CodeRange.covers_complement normal.gapped normal.proper normal.inPlane

namespace Build

open TokenTables.Automaton.Graph

variable {settings : BuildSettings} {c c' : Construction}

/-! ### One state for the ranges -/

/-- Building a state for the ranges comes through, and the state accepts these characters and no others. -/
def StateAccepts (ranges : List CodeRange) (P : Char → Prop) : Prop :=
  ∀ c, ∃ f c', oneChar ranges c = .ok f c' ∧ ∀ v, (c'.graph.state f.start).accepts v = true ↔ P v

theorem StateAccepts.congr {ranges : List CodeRange} {P Q : Char → Prop} (accepts : StateAccepts ranges P)
    (same : ∀ v, P v ↔ Q v) : StateAccepts ranges Q := by
  intro c
  obtain ⟨f, c', run, here⟩ := accepts c
  exact ⟨f, c', run, fun v => (here v).trans (same v)⟩

theorem mem_singles {accepts : Char → Prop} {v : Char} : [v] ∈ singles accepts ↔ accepts v := by
  show (∃ w, [v] = [w] ∧ accepts w) ↔ accepts v
  simp

theorem mem_reads {m : Moves} {v : Char} : [v] ∈ reads m ↔ m.accepts v = true :=
  @mem_singles (fun w => m.accepts w = true) v

theorem accepts_addRanges {ranges : List CodeRange} {v : Char} :
    (({} : Moves).addRanges (ranges.flatMap CodeRange.outsideSurrogates)).accepts v = true ↔ Covers ranges v.toNat := by
  rw [← mem_reads, reads_addRanges]
  exact @mem_singles (fun w => Covers ranges w.toNat) v

theorem oneChar_accepts (ranges : List CodeRange) : StateAccepts ranges fun v => Covers ranges v.toNat := by
  intro c
  refine ⟨_, _, rfl, fun v => ?_⟩
  have inside : c.graph.size < ((c.graph.addState {}).addState {}).size := by
    rw [size_addState, size_addState]
    omega
  show (Graph.state (Graph.alter ((c.graph.addState {}).addState {}) c.graph.size _) c.graph.size).accepts v = true ↔ _
  rw [state_alter_same inside, state_addState, if_neg (by simp), state_addState, if_pos rfl]
  exact accepts_addRanges

/-! ### Several classes -/

/-- What has been gathered from some alternatives are the ranges of those among them that read one character. -/
structure Merges (settings : BuildSettings) (done : List Regex) (chars : Option (List CodeRange)) : Prop where
  proper : Proper (chars.getD [])
  inPlane : ∀ r ∈ chars.getD [], r.last ≤ lastCode
  covers : ∀ v : Char, Covers (chars.getD []) v.toNat ↔
    ∃ r ∈ done, ∃ cls, singleChars? r = some cls ∧ cls.Accepts settings.ignoreCase v

theorem merges_none : Merges settings [] none :=
  ⟨by simp [Proper], by simp, by simp [Text.CodeRange.not_covers_nil]⟩

theorem gatherOne_merges {gathered after : List ChoicePart × Option (List CodeRange)} {r : Regex} {done : List Regex}
    (merges : Merges settings done gathered.2) (run : gatherOne settings gathered r c = .ok after c') :
    Merges settings (done ++ [r]) after.2 := by
  unfold gatherOne at run
  cases single : singleChars? r with
  | none =>
    rw [single] at run
    obtain ⟨rfl, rfl⟩ := pure_ok run
    refine ⟨merges.proper, merges.inPlane, fun v => ?_⟩
    rw [merges.covers]
    simp [single, or_and_right, exists_or]
  | some cls =>
    rw [single] at run
    obtain ⟨more, between, checked, rest⟩ := bind_ok run
    obtain ⟨_, admitted, rfl⟩ := admittedRanges_ok checked
    have normal := @normal_acceptedRanges settings.ignoreCase cls admitted
    have both : after.2.getD [] = gathered.2.getD [] ++ acceptedRanges settings.ignoreCase cls := by
      cases known : gathered.2 with
      | none =>
        rw [known] at rest
        obtain ⟨rfl, rfl⟩ := pure_ok rest
        rfl
      | some ranges =>
        rw [known] at rest
        obtain ⟨rfl, rfl⟩ := pure_ok rest
        rfl
    refine ⟨?_, ?_, fun v => ?_⟩
    · rw [both]
      intro q member
      exact (List.mem_append.mp member).elim (merges.proper q) (normal.proper q)
    · rw [both]
      intro q member
      exact (List.mem_append.mp member).elim (merges.inPlane q) (normal.inPlane q)
    · rw [both, Text.CodeRange.covers_append, merges.covers, covers_acceptedRanges admitted]
      simp [single, or_and_right, exists_or]

theorem gatherChars_merges {alternatives : List Regex} {parts : List ChoicePart} {ranges : List CodeRange}
    (run : gatherChars settings alternatives c = .ok (parts, ranges) c') :
    Normal ranges ∧ ∀ v : Char, Covers ranges v.toNat ↔
      ∃ r ∈ alternatives, ∃ cls, singleChars? r = some cls ∧ cls.Accepts settings.ignoreCase v := by
  have all : ∀ (rest done : List Regex) (gathered after : List ChoicePart × Option (List CodeRange)) (c c' : Construction),
      Merges settings done gathered.2 → rest.foldlM (gatherOne settings) gathered c = .ok after c' →
      Merges settings (done ++ rest) after.2 := by
    intro rest
    induction rest with
    | nil =>
      intro done gathered after c c' merges run
      obtain ⟨rfl, rfl⟩ := pure_ok run
      rwa [List.append_nil]
    | cons r rest ih =>
      intro done gathered after c c' merges run
      obtain ⟨next, between, first, others⟩ := bind_ok run
      have step := ih (done ++ [r]) next after between c' (gatherOne_merges merges first) others
      rwa [List.append_assoc] at step
  rw [gatherChars_eq] at run
  obtain ⟨⟨gathered, chars⟩, between, folded, rest⟩ := bind_ok run
  obtain ⟨result, rfl⟩ := pure_ok rest
  obtain ⟨rfl, rfl⟩ := Prod.mk.inj result
  have merged := all alternatives [] _ _ c _ merges_none folded
  refine ⟨normal_normalize merged.proper merged.inPlane, fun v => ?_⟩
  rw [Text.CodeRange.covers_normalize, merged.covers, List.nil_append]

/-- Every class that is admitted comes to normal ranges, which turned around cover the other codes of the plane, and to a
state that accepts exactly the characters of the plane that the class names, or those that it does not name if it is
negated. The one-character alternatives of a choice come to normal ranges as well, and to a state that accepts what any of
their classes does. -/
theorem classes_exact (settings : BuildSettings) :
    (∀ loc cls c ranges c', admittedRanges settings loc cls c = .ok ranges c' → Normal ranges ∧
      (∀ code, Covers (CodeRange.complement ranges) code ↔ code ≤ lastCode ∧ ¬ Covers ranges code) ∧
      StateAccepts ranges fun v =>
        v.toNat ≤ lastCode ∧ Xor (cls.Names settings.ignoreCase v) (cls.negated = true)) ∧
    ∀ alternatives c parts ranges c', gatherChars settings alternatives c = .ok (parts, ranges) c' → Normal ranges ∧
      StateAccepts ranges fun v =>
        ∃ r ∈ alternatives, ∃ cls, singleChars? r = some cls ∧ cls.Accepts settings.ignoreCase v := by
  refine ⟨fun loc cls c ranges c' run => ?_, fun alternatives c parts ranges c' run => ?_⟩
  · obtain ⟨_, admitted, rfl⟩ := admittedRanges_ok run
    have normal := @normal_acceptedRanges settings.ignoreCase cls admitted
    refine ⟨normal, fun code => normal.covers_complement, (oneChar_accepts _).congr fun v => ?_⟩
    rw [covers_acceptedRanges admitted, CharClass.Accepts]
    cases cls.negated <;> simp [xor_def]
  · obtain ⟨normal, covers⟩ := gatherChars_merges run
    exact ⟨normal, (oneChar_accepts ranges).congr covers⟩

/-- All but the letters from a to c, with case ignored. -/
def noAbc : CharClass := ⟨true, [.range 'a' 'b', .single 'C']⟩

/-- The letters a to d and what lies past w, written as three alternatives. -/
def threeClasses : List Regex :=
  [.literal .unknown "a", .charClass .unknown ⟨false, [.range 'b' 'd']⟩, .charClass .unknown ⟨true, [.range '\u0000' 'w']⟩]

theorem noAbc_exact :
    (∃ ranges, admittedRanges ⟨[], true, false⟩ .unknown noAbc { graph := {} } = .ok ranges { graph := {} } ∧
      ranges = [⟨0, 64⟩, ⟨68, 96⟩, ⟨100, lastCode⟩] ∧ Normal ranges ∧
      (∀ code, Covers (CodeRange.complement ranges) code ↔ code ≤ lastCode ∧ ¬ Covers ranges code) ∧
      StateAccepts ranges fun v => v.toNat ≤ lastCode ∧ Xor (noAbc.Names true v) (noAbc.negated = true)) ∧
    ∃ ranges, gatherChars ⟨[], false, false⟩ threeClasses { graph := {} } = .ok ([.chars], ranges) { graph := {} } ∧
      ranges = [⟨97, 100⟩, ⟨120, lastCode⟩] ∧ Normal ranges ∧ StateAccepts ranges fun v =>
        ∃ r ∈ threeClasses, ∃ cls, singleChars? r = some cls ∧ cls.Accepts false v := by
  have run : admittedRanges ⟨[], true, false⟩ .unknown noAbc { graph := {} } =
      .ok (acceptedRanges true noAbc) { graph := {} } := by rfl
  have gathered : gatherChars ⟨[], false, false⟩ threeClasses { graph := {} } = .ok ([.chars],
      CodeRange.normalize (acceptedRanges false ⟨false, [.single 'a']⟩ ++ acceptedRanges false ⟨false, [.range 'b' 'd']⟩ ++
        acceptedRanges false ⟨true, [.range '\u0000' 'w']⟩)) { graph := {} } := by rfl
  refine ⟨⟨_, run, by cbv, ?_⟩, _, gathered, by cbv, ?_⟩
  · exact (classes_exact ⟨[], true, false⟩).1 _ _ _ _ _ run
  · exact (classes_exact ⟨[], false, false⟩).2 _ _ _ _ _ gathered

end Build

end TokenTables.Automaton
