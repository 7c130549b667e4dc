import TokenTables.Proofs.Automaton.Shape

/-!
Ways through a fragment: paths that end when they first come to a given state. What is read on the ways from
the start of a fragment to its stop is the language of its shape.
-/

namespace TokenTables.Automaton.Graph

/-- The text is read on a path from `source` to its first visit of `stop`. -/
inductive Way (g : Graph) (stop : Nat) : Nat → List Char → Prop where
  | done : Way g stop stop []
  | epsilon {source target : Nat} {text} (under : source ≠ stop) (edge : target ∈ (g.state source).epsilon)
      (after : Way g stop target text) : Way g stop source text
  | move {source target : Nat} {c text} (under : source ≠ stop) (accepts : (g.state source).accepts c)
      (edge : (g.state source).next = some target) (after : Way g stop target text) :
    Way g stop source (c :: text)

/-- The texts of all ways from `source` to `stop`. -/
def ways (g : Graph) (stop source : Nat) : Language Char := {text | Way g stop source text}

variable {g : Graph} {start stop past source target : Nat} {texts : Language Char}

theorem mem_ways {text : List Char} : text ∈ ways g stop source ↔ Way g stop source text := Iff.rfl

theorem Way.path {text : List Char} (way : Way g stop source text) : g.Path source text stop := by
  induction way with
  | done => exact .here
  | epsilon _ edge _ ih => exact .epsilon edge ih
  | move _ accepts edge _ ih => exact .move accepts edge ih

/-! ### One state at a time -/

theorem ways_stop : ways g stop stop = 1 := by
  ext text
  rw [mem_ways, Language.mem_one]
  constructor
  · intro way
    cases way with
    | done => rfl
    | epsilon under => exact absurd rfl under
    | move under => exact absurd rfl under
  · rintro rfl
    exact .done

/-- A state that moves without epsilon moves. -/
theorem ways_move (under : source ≠ stop) (bare : (g.state source).epsilon = [])
    (goes : (g.state source).next = some target) :
    ways g stop source = reads (g.state source).moves * ways g stop target := by
  ext text
  rw [mem_ways, Language.mem_mul]
  constructor
  · intro way
    cases way with
    | done => exact absurd rfl under
    | epsilon _ edge =>
      rw [bare] at edge
      cases edge
    | @move _ _ c text _ accepts edge after =>
      rw [goes] at edge
      obtain rfl := Option.some.inj edge
      exact ⟨[c], ⟨c, rfl, accepts⟩, text, after, rfl⟩
  · rintro ⟨_, ⟨c, rfl, accepts⟩, after, way, rfl⟩
    exact .move under accepts goes way

/-- A state with epsilon moves only. -/
theorem mem_ways_epsilon (under : source ≠ stop) (halts : (g.state source).next = none) {text : List Char} :
    text ∈ ways g stop source ↔ ∃ target ∈ (g.state source).epsilon, text ∈ ways g stop target := by
  rw [mem_ways]
  constructor
  · intro way
    cases way with
    | done => exact absurd rfl under
    | epsilon _ edge after => exact ⟨_, edge, after⟩
    | move _ _ edge =>
      rw [halts] at edge
      cases edge
  · rintro ⟨target, edge, after⟩
    exact .epsilon under edge after

theorem ways_link (under : source ≠ stop) (halts : (g.state source).next = none)
    (link : (g.state source).epsilon = [target]) : ways g stop source = ways g stop target := by
  ext text
  rw [mem_ways_epsilon under halts, link]
  simp

/-! ### One fragment at a time -/

/-- A way to somewhere outside a fragment leaves it through its stop state. -/
theorem Enclosed.ways_through {outside : Nat} (inside : Enclosed g start stop past)
    (out : outside < start ∨ past ≤ outside) (low : start ≤ source) (high : source < past) :
    ways g outside source = ways g stop source * ways g outside stop := by
  ext text
  rw [Language.mem_mul]
  constructor
  · intro way
    replace way : Way g outside source text := way
    induction way with
    | done => omega
    | @epsilon source target text under edge after ih =>
      by_cases here : source = stop
      · refine ⟨[], ?_, text, here ▸ .epsilon under edge after, rfl⟩
        rw [here, ways_stop]
        exact Language.nil_mem_one
      · obtain ⟨above, below⟩ := inside.epsilon source low high here target edge
        obtain ⟨first, within, rest, leaving, rfl⟩ := ih (by omega) below
        exact ⟨first, .epsilon here edge within, rest, leaving, rfl⟩
    | @move source target c text under accepts edge after ih =>
      obtain ⟨rfl, below, here, _⟩ := inside.next source low high target edge
      obtain ⟨first, within, rest, leaving, rfl⟩ := ih (by omega) below
      exact ⟨c :: first, .move here accepts edge within, rest, leaving, rfl⟩
  · rintro ⟨first, within, rest, leaving, rfl⟩
    replace within : Way g stop source first := within
    induction within with
    | done => exact leaving
    | @epsilon source target text here edge after ih =>
      obtain ⟨above, below⟩ := inside.epsilon source low high here target edge
      exact .epsilon (by omega) edge (ih (by omega) below)
    | @move source target c text here accepts edge after ih =>
      obtain ⟨rfl, below, _, _⟩ := inside.next source low high target edge
      exact .move (by omega) accepts edge (ih (by omega) below)

/-- A path that begins in a fragment whose stop state leads nowhere stays in it; to the stop state it is a way. -/
theorem Enclosed.path_within (inside : Enclosed g start stop past) (loose : (g.state stop).epsilon = []) {target : Nat}
    {text : List Char} (path : g.Path source text target) (low : start ≤ source) (high : source < past) :
    (start ≤ target ∧ target < past) ∧ (target = stop → Way g stop source text) := by
  induction path with
  | here =>
    refine ⟨⟨low, high⟩, fun same => ?_⟩
    rw [same]
    exact .done
  | @epsilon source next target text edge after ih =>
    have under : source ≠ stop := by
      rintro rfl
      rw [loose] at edge
      cases edge
    obtain ⟨above, below⟩ := inside.epsilon source low high under next edge
    have nextLow : start ≤ (next : Nat) := by omega
    obtain ⟨bounds, way⟩ := ih nextLow below
    exact ⟨bounds, fun same => .epsilon under edge (way same)⟩
  | @move source next target c text accepts edge after ih =>
    obtain ⟨step, below, under, _⟩ := inside.next source low high next edge
    have nextLow : start ≤ (next : Nat) := by omega
    obtain ⟨bounds, way⟩ := ih nextLow below
    exact ⟨bounds, fun same => .move under accepts edge (way same)⟩

/-- What follows a piece of a fork is the end of the fork or, if `repeatable`, the piece again. -/
theorem mem_ways_back {join : Nat} {repeatable : Bool} (inside : Enclosed g start stop past)
    (out : join < start) (back : (g.state stop).epsilon = join :: if repeatable then [start] else [])
    {text : List Char} :
    text ∈ ways g join stop ↔ text = [] ∨ repeatable = true ∧ text ∈ ways g join start := by
  have under : stop ≠ join := by have := inside.start_le; omega
  rw [mem_ways_epsilon under inside.stop_next, back]
  cases repeatable with
  | false => simp [ways_stop]
  | true => simp [ways_stop]

theorem ways_back {join : Nat} {repeatable : Bool} (inside : Enclosed g start stop past)
    (out : join < start) (back : (g.state stop).epsilon = join :: if repeatable then [start] else []) :
    ways g join stop = if repeatable then KStar.kstar (ways g stop start) else 1 := by
  have startLe := inside.start_le
  have stopLt := inside.stop_lt
  ext text
  cases repeatable with
  | false =>
    rw [mem_ways_back inside out back]
    simp
  | true =>
    have repeats : ∀ {text}, text ∈ ways g join stop ↔ text = [] ∨ text ∈ ways g join start := by
      simpa using @mem_ways_back _ _ _ _ _ true inside out back
    simp only [if_true]
    constructor
    · -- Each round of a way reads a text of the fragment and leaves a shorter way.
      have rounds : ∀ {source : Nat} {text}, Way g join source text → start ≤ source → source < past →
          text ∈ ways g stop source * KStar.kstar (ways g stop start) := by
        intro source text way
        induction way with
        | done => intro low; omega
        | @epsilon source target text under edge after ih =>
          intro low high
          by_cases here : source = stop
          · subst here
            rw [ways_stop, one_mul]
            rw [back] at edge
            rcases List.mem_cons.mp edge with rfl | again
            · have blank : text ∈ ways g target target := after
              rw [ways_stop, Language.mem_one] at blank
              rw [blank]
              exact Language.nil_mem_kstar _
            · obtain rfl := List.mem_singleton.mp again
              rw [← Language.one_add_self_mul_kstar_eq_kstar, Language.mem_add]
              exact .inr (ih (Nat.le_refl _) (by omega))
          · obtain ⟨above, below⟩ := inside.epsilon source low high here target edge
            obtain ⟨first, within, rest, more, rfl⟩ := Language.mem_mul.mp (ih (by omega) below)
            exact Language.append_mem_mul (.epsilon here edge within) more
        | @move source target c text under accepts edge after ih =>
          intro low high
          obtain ⟨rfl, below, here, _⟩ := inside.next source low high target edge
          obtain ⟨first, within, rest, more, rfl⟩ := Language.mem_mul.mp (ih (by omega) below)
          exact Language.append_mem_mul (.move here accepts edge within : _ ∈ ways g stop source) more
      intro way
      have all := rounds way startLe stopLt
      rwa [ways_stop, one_mul] at all
    · intro member
      obtain ⟨parts, rfl, each⟩ := Language.mem_kstar.mp member
      clear member
      induction parts with
      | nil => exact repeats.mpr (.inl rfl)
      | cons first rest ih =>
        refine repeats.mpr (.inr ?_)
        rw [inside.ways_through (.inl out) (Nat.le_refl _) (by omega), List.flatten_cons]
        exact Language.append_mem_mul (each first List.mem_cons_self)
          (ih fun part member => each part (List.mem_cons_of_mem _ member))

/-- The texts of a shape are those of the ways from its start to its stop. -/
theorem Shape.ways_eq (shape : Shape g start stop past texts) : ways g stop start = texts := by
  induction shape with
  | nothing => exact ways_stop
  | @char start stop past texts bare valid goes after ih =>
    have first := after.enclosed.start_le
    rw [ways_move (by omega) bare goes, ih]
  | @join start mid stop middle past first second before link after ihBefore ihAfter =>
    have startMid := before.enclosed.start_le
    have midMiddle := before.enclosed.stop_lt
    have middleStop := after.enclosed.start_le
    rw [before.enclosed.ways_through (.inr middleStop) (Nat.le_refl _) (by omega),
      ways_link (by omega) before.enclosed.stop_next link, ihBefore, ihAfter]
  | @fork start past skippable repeatable pieces idle stopIdle ahead row each back ih =>
    have proper : ∀ p ∈ pieces, p.start ≤ p.past := fun p member =>
      ((each p member).enclosed.start_le.trans_lt (each p member).enclosed.stop_lt).le
    have piece : ∀ p ∈ pieces, ways g (start + 1) p.start =
        p.texts * (if repeatable then KStar.kstar p.texts else 1) := by
      intro p member
      have within := row.within proper member
      have inside := (each p member).enclosed
      have := inside.start_le
      have := inside.stop_lt
      rw [inside.ways_through (.inl (by omega)) (Nat.le_refl _) (by omega),
        ways_back inside (by omega) (back p member), ih p member]
    ext text
    rw [mem_ways_epsilon (by omega) idle.next, ahead]
    simp only [List.mem_append, List.mem_map]
    constructor
    · rintro ⟨target, skip | ⟨p, member, rfl⟩, way⟩
      · cases skippable with
        | false => cases skip
        | true =>
          obtain rfl := List.mem_singleton.mp skip
          rw [ways_stop, Language.mem_one] at way
          exact .inl ⟨rfl, way⟩
      · rw [piece p member] at way
        exact .inr ⟨p, member, way⟩
    · rintro (⟨skips, rfl⟩ | ⟨p, member, way⟩)
      · refine ⟨start + 1, .inl (by simp [skips]), ?_⟩
        rw [ways_stop]
        exact Language.nil_mem_one
      · exact ⟨p.start, .inr ⟨p, member, rfl⟩, piece p member ▸ way⟩

end TokenTables.Automaton.Graph
