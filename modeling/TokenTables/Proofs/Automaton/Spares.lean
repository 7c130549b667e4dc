import TokenTables.Proofs.Automaton.Relocation
import TokenTables.Proofs.Automaton.Gateway

/-!
Graphs of rules where the one has more rules than the other. The rules that both have are the same pieces at other
places; the spare ones, which are literals, are chains by themselves.
-/

namespace TokenTables.Automaton

/-- A rule for a text that is written out. -/
def Rule.IsText (r : Rule) : Prop := ∃ loc text, r.regex = .literal loc text

namespace Build

open TokenTables.Automaton.Graph

variable {c c' : Construction}

/-- From `first` on no state has epsilon moves. -/
def Bare (first : Nat) (g : Graph) : Prop := ∀ s : Nat, first ≤ s → (g.state s).epsilon = []

theorem bare_end (g : Graph) : Bare g.size g := fun s late => by
  rw [state_of_size_le late]

theorem Bare.addState {g : Graph} {first : Nat} (bare : Bare first g) : Bare first (g.addState {}) := by
  intro s late
  rw [state_addState]
  split
  · rfl
  · exact bare s late

theorem Bare.addMoves {first source target : Nat} {more : Moves → Moves} {u : Unit} (bare : Bare first c.graph)
    (run : addMoves source target more c = .ok u c') : Bare first c'.graph := by
  rw [addMoves_ok run]
  intro s late
  rw [state_alter]
  split
  · rename_i here
    exact bare source (here.1 ▸ late)
  · exact bare s late

theorem chain_bare {ignoreCase : Bool} {chars : List Char} {first current stop : Nat} (bare : Bare first c.graph)
    (run : chars.foldlM (link ignoreCase) current c = .ok stop c') : Bare first c'.graph := by
  induction chars generalizing c current with
  | nil =>
    obtain ⟨_, rfl⟩ := pure_ok run
    exact bare
  | cons d rest ih =>
    obtain ⟨next, c₃, linked, others⟩ := bind_ok run
    obtain ⟨_, c₁, added, linked⟩ := bind_ok linked
    obtain ⟨_, c₂, moved, linked⟩ := bind_ok linked
    obtain ⟨_, rfl⟩ := pure_ok linked
    refine ih (Bare.addMoves ?_ moved) others
    rw [(addState_ok added).2]
    exact bare.addState

theorem text_bare {settings : BuildSettings} {loc : Location} {chars : List Char} {f : Fragment}
    (run : text settings loc chars c = .ok f c') : Bare c.graph.size c'.graph := by
  obtain ⟨_, c₁, checks, rest⟩ := bind_ok run
  obtain ⟨same, _⟩ := forM_ok (fun w : Char => w.toNat ≤ Text.lastCode) (fun _ _ _ _ => admitChar_ok) checks
  obtain ⟨start, c₂, added, rest⟩ := bind_ok rest
  obtain ⟨stop, c₃, chain, rest⟩ := bind_ok rest
  obtain ⟨_, rfl⟩ := pure_ok rest
  refine chain_bare ?_ chain
  rw [(addState_ok added).2, ← same]
  exact (bare_end c₁.graph).addState

end Build

namespace Graph

variable {g h : Graph} {place : Nat → Nat} {few pieces spare : List RulePiece}

/-- The graph after a rule, from the one its fragment was built into. -/
def withRule (g built : Graph) (stop : Nat) (kind : Kind) : Graph := (built.acceptAt stop kind).linkEpsilon 0 g.size

theorem size_withRule {built : Graph} {stop : Nat} {kind : Kind} : (withRule g built stop kind).size = built.size := by
  rw [withRule, size_linkEpsilon, acceptAt, size_alter]

/-- The states that were there before stay, but for the initial one. -/
theorem withRule_old {built : Graph} {stop : Nat} {texts : Language Char} {kind : Kind}
    (made : Constructed g built stop texts) {s : Nat} (positive : 0 < s) (inside : s < g.size) :
    (withRule g built stop kind).state s = g.state s := by
  have low := made.stop_bounds.1
  rw [withRule, state_linkEpsilon_other (by omega), acceptAt, state_alter_other (by omega), made.grown.kept s inside]

theorem withRule_bare {built : Graph} {stop : Nat} {kind : Kind} (bare : Build.Bare g.size built) (positive : 0 < g.size) :
    Build.Bare g.size (withRule g built stop kind) := by
  intro s late
  rw [withRule, state_linkEpsilon_other (by omega), acceptAt, state_alter]
  split
  · rename_i here
    exact bare stop (here.1 ▸ late)
  · exact bare s late

/-- Links from the initial state do not matter to a copy. -/
theorem Copied.linkInitial (copied : Copied place g h) (target other : Nat) :
    Copied place (g.linkEpsilon 0 target) (h.linkEpsilon 0 other) where
  keeps := copied.keeps
  zero := copied.zero
  size_pos := by
    rw [size_linkEpsilon]
    exact copied.size_pos
  size_le := by
    rw [size_linkEpsilon, size_linkEpsilon]
    exact copied.size_le
  beyond := by
    rw [size_linkEpsilon, size_linkEpsilon]
    exact copied.beyond
  state s positive := by
    have above := copied.keeps.le_apply (x := s)
    rw [state_linkEpsilon_other (by omega), state_linkEpsilon_other (by omega)]
    exact copied.state s positive

/-- The second graph has the rules of the first one and some spare ones besides. -/
structure Embedded (place : Nat → Nat) (g h : Graph) (few pieces spare : List RulePiece) : Prop
    extends Copied place g h where
  ruledFew : Ruled g few
  ruled : Ruled h pieces
  sub : ∀ p ∈ spare, p ∈ pieces
  chain : ∀ p ∈ spare, ∀ t : Nat, p.start ≤ t → t < p.past → (h.state t).epsilon = []
  apart : ∀ p ∈ spare, ∀ t : Nat, p.start ≤ t → t < p.past → ∀ s, place s ≠ t
  covered : ∀ t : Nat, 0 < t → t < h.size → (∃ s, place s = t) ∨ ∃ p ∈ spare, p.start ≤ t ∧ t < p.past
  opening : ∀ s, place s ∈ (h.state 0).epsilon ↔ s ∈ (g.state 0).epsilon

theorem embedded_start : Embedded (fun s => s) (withInitial {}).1 (withInitial {}).1 [] [] [] where
  keeps := strictMono_id
  zero := rfl
  size_pos := Nat.one_pos
  size_le := Nat.le_refl _
  beyond s _ := by rw [Nat.sub_self, Nat.add_zero]
  state s positive := by
    rw [state_of_size_le positive]
    rfl
  ruledFew := ruled_nil
  ruled := ruled_nil
  sub _ none := none
  chain _ none := absurd none List.not_mem_nil
  apart _ none := absurd none List.not_mem_nil
  covered t positive inside := absurd positive (Nat.not_lt.mpr (Nat.le_of_lt_succ inside))
  opening _ := Iff.rfl

theorem Embedded.spare_inside (embedded : Embedded place g h few pieces spare) {p : RulePiece} (member : p ∈ spare) :
    1 ≤ p.start ∧ p.past ≤ h.size := embedded.ruled.within (embedded.sub p member)

/-- A rule that both graphs get. -/
theorem Embedded.addRule (embedded : Embedded place g h few pieces spare) {settings : BuildSettings} {kind : Kind}
    {r : Regex} {f other : Fragment} (ok : (g.build settings r).outcome = .ok f)
    (okOther : (h.build settings r).outcome = .ok other) :
    ∃ p q, Embedded place (g.addRule settings 0 kind r).graph (h.addRule settings 0 kind r).graph (few ++ [p])
      (pieces ++ [q]) spare := by
  obtain ⟨start, made⟩ := build_ok ok
  obtain ⟨startOther, madeOther⟩ := build_ok okOther
  obtain ⟨moved, copied⟩ := embedded.toCopied.build ok okOther
  rw [addRule_graph ok, addRule_graph okOther, start, startOther]
  have ruledFew := @Ruled.add _ _ _ _ _ kind embedded.ruledFew made
  have ruled := @Ruled.add _ _ _ _ _ kind embedded.ruled madeOther
  have sizeOther := @size_withRule h (h.build settings r).graph other.stop kind
  have old : ∀ t : Nat, 0 < t → t < h.size → _ = h.state t := fun t => @withRule_old h _ _ _ kind madeOther t
  have links := (copied.acceptAt moved.stop_pos kind).linkInitial g.size h.size
  rw [← moved.stop] at links
  refine ⟨_, _, links, ruledFew, ruled, fun p member => List.mem_append_left _ (embedded.sub p member),
    fun p member t low high => ?_, fun p member => embedded.apart p member, fun t positive inside => ?_, fun s => ?_⟩
  · have within := embedded.spare_inside member
    rw [← embedded.chain p member t low high]
    exact congrArg State.epsilon (old t (by omega) (by omega))
  · rcases Nat.lt_or_ge t h.size with early | late
    · exact embedded.covered t positive early
    · refine .inl ⟨t - (h.size - g.size), ?_⟩
      have le := embedded.size_le
      rw [embedded.beyond _ (by omega)]
      omega
  · rw [ruled.initial, ruledFew.initial, List.map_append, List.map_append, List.mem_append, List.mem_append]
    have before := embedded.opening s
    rw [embedded.ruled.initial, embedded.ruledFew.initial] at before
    refine or_congr before ?_
    rw [List.map_singleton, List.map_singleton, List.mem_singleton, List.mem_singleton, ← embedded.place_size]
    exact embedded.keeps.injective.eq_iff

/-- Places where a graph has grown by states that the other does not have. -/
def widened (place : Nat → Nat) (count more : Nat) (s : Nat) : Nat := if s < count then place s else s + more

theorem widened_of_lt {count more s : Nat} (early : s < count) : widened place count more s = place s := if_pos early

theorem widened_of_le {count more s : Nat} (late : count ≤ s) : widened place count more s = s + more :=
  if_neg (Nat.not_lt.mpr late)

theorem widened_strictMono {count : Nat} (copied : Copied place g h) (grown : h.size ≤ count) :
    StrictMono (widened place g.size (count - g.size)) := by
  have le := copied.size_le
  intro a b less
  rcases Nat.lt_or_ge b g.size with early | late
  · rw [widened_of_lt early, widened_of_lt (by omega)]
    exact copied.keeps less
  · rw [widened_of_le late]
    rcases Nat.lt_or_ge a g.size with earlyA | lateA
    · have := copied.place_lt.mpr earlyA
      rw [widened_of_lt earlyA]
      omega
    · rw [widened_of_le lateA]
      omega

/-- A literal that only the second graph gets. -/
theorem Embedded.addSpare (embedded : Embedded place g h few pieces spare) {settings : BuildSettings} {kind : Kind}
    {loc : Location} {text : String} {f : Fragment} (ok : (h.build settings (.literal loc text)).outcome = .ok f) :
    ∃ place p, p.kind = kind ∧ p.texts = (Regex.literal loc text).language settings.definitions settings.ignoreCase ∧
      Embedded place g (h.addRule settings 0 kind (.literal loc text)).graph few (pieces ++ [p]) (spare ++ [p]) := by
  obtain ⟨start, made⟩ := build_ok ok
  have bare : Build.Bare h.size (h.build settings (.literal loc text)).graph := by
    unfold build at ok ⊢
    cases depth : depthBound settings.definitions (.literal loc text) with
    | zero =>
      rw [depth] at ok
      cases ok
    | succ depth' =>
      rw [depth] at ok
      split at ok
      · rename_i fragment c run
        exact Build.text_bare run
      · cases ok
  rw [addRule_graph ok, start]
  have ruled := @Ruled.add _ _ _ _ _ kind embedded.ruled made
  have size := @size_withRule h (h.build settings (.literal loc text)).graph f.stop kind
  have old : ∀ t : Nat, 0 < t → t < h.size → _ = h.state t := fun t => @withRule_old h _ _ _ kind made t
  have chain := @withRule_bare h _ f.stop kind bare embedded.ruled.size_pos
  have grown := made.grown.size_le
  have le := embedded.size_le
  have fresh := embedded.ruledFew.fresh
  change Ruled (withRule h (h.build settings (.literal loc text)).graph f.stop kind) _ at ruled
  change ∃ place p, _ ∧ _ ∧ Embedded place g (withRule h (h.build settings (.literal loc text)).graph f.stop kind) few _ _
  generalize withRule h (h.build settings (.literal loc text)).graph f.stop kind = after at ruled size old chain
  rw [← size] at grown
  have places : ∀ s : Nat, s < g.size → widened place g.size (after.size - g.size) s < h.size := fun s early => by
    rw [widened_of_lt early]
    exact embedded.place_lt.mpr early
  have beyond : ∀ s : Nat, g.size ≤ s → after.size ≤ widened place g.size (after.size - g.size) s := fun s late => by
    rw [widened_of_le late]
    omega
  refine ⟨widened place g.size (after.size - g.size), _, rfl, rfl,
    ⟨widened_strictMono embedded.toCopied grown, (widened_of_lt embedded.size_pos).trans embedded.zero,
      embedded.size_pos, by omega, fun s late => widened_of_le late,
      fun s positive => ?_⟩,
    embedded.ruledFew, ruled, fun p member => ?_, fun p member t low high => ?_, fun p member t low high s => ?_,
    fun t positive inside => ?_, fun s => ?_⟩
  · rcases Nat.lt_or_ge s g.size with early | late
    · have above := embedded.keeps.le_apply (x := s)
      rw [widened_of_lt early, old (place s) (by omega) (embedded.place_lt.mpr early), embedded.state s positive]
      refine State.relocated_congr (fun t edge => ?_) fun t goes => ?_
      · exact (widened_of_lt (fresh.target s t edge)).symm
      · exact (widened_of_lt (fresh.next s t goes).2.1).symm
    · rw [state_of_size_le (beyond s late), state_of_size_le late]
      rfl
  · rcases List.mem_append.mp member with before | last
    · exact List.mem_append_left _ (embedded.sub p before)
    · exact List.mem_append_right _ last
  · rcases List.mem_append.mp member with before | last
    · have within := embedded.spare_inside before
      rw [old t (by omega) (by omega)]
      exact embedded.chain p before t low high
    · obtain rfl := List.mem_singleton.mp last
      exact chain t low
  · intro same
    rcases Nat.lt_or_ge s g.size with early | late
    · have := places s early
      rcases List.mem_append.mp member with before | last
      · rw [widened_of_lt early] at same
        exact embedded.apart p before t low high s same
      · obtain rfl := List.mem_singleton.mp last
        have above : h.size ≤ t := low
        omega
    · have := beyond s late
      have inside := (ruled.within (List.mem_append.mpr ((List.mem_append.mp member).imp_left (embedded.sub p)))).2
      omega
  · rcases Nat.lt_or_ge t h.size with early | late
    · rcases embedded.covered t positive early with ⟨s, rfl⟩ | ⟨p, member, low, high⟩
      · exact .inl ⟨s, widened_of_lt (embedded.place_lt.mp early)⟩
      · exact .inr ⟨p, List.mem_append_left _ member, low, high⟩
    · rw [size] at inside
      exact .inr ⟨_, List.mem_append_right _ (List.mem_singleton.mpr rfl), late, inside⟩
  · rw [ruled.initial, List.map_append, List.map_singleton, List.mem_append, List.mem_singleton]
    have before := embedded.opening s
    rw [embedded.ruled.initial] at before
    rcases Nat.lt_or_ge s g.size with early | late
    · have small := places s early
      rw [widened_of_lt early] at small ⊢
      exact (or_iff_left (Nat.ne_of_lt small)).trans before
    · have large := beyond s late
      refine iff_of_false ?_ fun edge => ?_
      · rintro (edge | same)
        · obtain ⟨p, member, start⟩ := List.mem_map.mp edge
          have := embedded.ruled.within member
          have := embedded.ruled.lt_past p member
          omega
        · have same : widened place g.size (after.size - g.size) s = h.size := same
          have := made.stop_bounds
          omega
      · have := fresh.target 0 s edge
        omega

/-- The second of two lists of rules has literals besides the rules of the first one. -/
theorem addRules_embedded {defs : Definitions} {unicodeInput : Bool} {skip : Rule → Bool} {rest : List Rule}
    {after afterFew : Graph} (embedded : Embedded place g h few pieces spare)
    (texts : ∀ r ∈ rest, skip r = true → r.IsText) (ok : addRules defs unicodeInput 0 h rest = .ok after)
    (okFew : addRules defs unicodeInput 0 g (rest.filter fun r => !skip r) = .ok afterFew) :
    ∃ place few pieces more, Embedded place afterFew after few pieces (spare ++ more) ∧
      more.map (fun p => (p.kind, p.texts)) = (rest.filter skip).map fun r => (r.kind, r.texts defs) := by
  induction rest generalizing g h place few pieces spare with
  | nil =>
    obtain rfl := Except.ok.inj ok
    obtain rfl := Except.ok.inj okFew
    exact ⟨place, few, pieces, [], by rwa [List.append_nil], rfl⟩
  | cons r others ih =>
    obtain ⟨text, textsRest⟩ := List.forall_mem_cons.mp texts
    unfold addRules at ok
    dsimp only at ok
    split at ok
    · rename_i f outcome
      rw [addRule_outcome] at outcome
      cases skipped : skip r with
      | true =>
        obtain ⟨loc, written, regex⟩ := text skipped
        rw [List.filter_cons_of_neg (by simp [skipped])] at okFew
        rw [List.filter_cons_of_pos skipped]
        rw [regex] at outcome ok
        obtain ⟨place, p, kind, language, next⟩ := @Embedded.addSpare _ _ _ _ _ _ embedded _ r.kind _ _ _ outcome
        obtain ⟨placeLast, fewLast, piecesLast, more, last, same⟩ := ih next textsRest ok okFew
        rw [List.append_assoc] at last
        refine ⟨placeLast, fewLast, piecesLast, p :: more, last, ?_⟩
        rw [List.map_cons, List.map_cons, same, kind, language]
        unfold Rule.texts
        rw [regex]
      | false =>
        rw [List.filter_cons_of_pos (by simp [skipped])] at okFew
        rw [List.filter_cons_of_neg (by simp [skipped])]
        unfold addRules at okFew
        dsimp only at okFew
        split at okFew
        · rename_i other outcomeFew
          rw [addRule_outcome] at outcomeFew
          obtain ⟨p, q, next⟩ := @Embedded.addRule _ _ _ _ _ _ embedded _ r.kind _ _ _ outcomeFew outcome
          exact ih next textsRest ok okFew
        · cases okFew
    · cases ok

theorem ofRules_embedded {defs : Definitions} {unicodeInput : Bool} {skip : Rule → Bool} {rules : List Rule}
    (texts : ∀ r ∈ rules, skip r = true → r.IsText) (ok : ofRules defs unicodeInput rules = .ok h)
    (okFew : ofRules defs unicodeInput (rules.filter fun r => !skip r) = .ok g) :
    ∃ place few pieces spare, Embedded place g h few pieces spare ∧
      spare.map (fun p => (p.kind, p.texts)) = (rules.filter skip).map fun r => (r.kind, r.texts defs) :=
  addRules_embedded embedded_start texts ok okFew

end Graph

end TokenTables.Automaton
