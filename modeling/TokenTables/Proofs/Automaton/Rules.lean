import TokenTables.Proofs.Automaton.Expression
import TokenTables.Proofs.Automaton.Ways

/-!
The graph of a list of rules. Every rule begins at the initial state and ends in a state of its own kind; the
paths from the one to the other read what the regex of the rule matches.
-/

namespace TokenTables.Automaton

/-- A regex and the kind that it matches. -/
structure Rule where
  kind : Kind
  regex : Regex
  ignoreCase : Bool

namespace Rule

/-- The texts that a rule matches. -/
def texts (defs : Definitions) (r : Rule) : Language Char := r.regex.language defs r.ignoreCase

end Rule

namespace Graph

/-- Adds every rule, unless one of them cannot be built. -/
def addRules (defs : Definitions) (unicodeInput : Bool) (initial : StateId) :
    Graph → List Rule → Except RegexFault Graph
  | g, [] => .ok g
  | g, r :: rest =>
    let built := g.addRule ⟨defs, r.ignoreCase, unicodeInput⟩ initial r.kind r.regex
    match built.outcome with
    | .ok _ => addRules defs unicodeInput initial built.graph rest
    | .error fault => .error fault

/-- The graph of a lexical state with these rules. -/
def ofRules (defs : Definitions) (unicodeInput : Bool) (rules : List Rule) : Except RegexFault Graph :=
  let (g, initial) := Graph.withInitial {}
  addRules defs unicodeInput initial g rules

/-- The fragment of a rule. -/
structure RulePiece extends Piece where
  kind : Kind

/-- A graph made of rule fragments behind the initial state. -/
structure Ruled (g : Graph) (rules : List RulePiece) : Prop where
  row : Consecutive 1 (rules.map RulePiece.toPiece) g.size
  initial : g.state 0 = { epsilon := rules.map (·.start) }
  shape : ∀ p ∈ rules, Shape g p.start p.stop p.past p.texts
  stop : ∀ p ∈ rules, g.state p.stop = { isFinal := true, kind := some p.kind }
  inner : ∀ p ∈ rules, ∀ s : Nat, p.start ≤ s → s < p.past → s ≠ p.stop → Unmarked (g.state s)
  frame : { g with states := #[] } = { initial := some 0 }

variable {g : Graph} {rules : List RulePiece}

theorem Ruled.lt_past (ruled : Ruled g rules) : ∀ p ∈ rules, p.start ≤ p.stop ∧ p.stop < p.past :=
  fun p member => ⟨(ruled.shape p member).enclosed.start_le, (ruled.shape p member).enclosed.stop_lt⟩

theorem Ruled.proper (ruled : Ruled g rules) : ∀ p ∈ rules.map RulePiece.toPiece, p.start ≤ p.past := by
  intro p member
  obtain ⟨r, rule, rfl⟩ := List.mem_map.mp member
  obtain ⟨low, high⟩ := ruled.lt_past r rule
  exact low.trans high.le

theorem Ruled.within (ruled : Ruled g rules) {p : RulePiece} (member : p ∈ rules) :
    1 ≤ p.start ∧ p.past ≤ g.size :=
  ruled.row.within ruled.proper (List.mem_map.mpr ⟨p, member, rfl⟩)

theorem Ruled.size_pos (ruled : Ruled g rules) : 1 ≤ g.size := ruled.row.le ruled.proper

/-- Every state but the initial one lies in a rule. -/
theorem Ruled.covers (ruled : Ruled g rules) {s : Nat} (low : 1 ≤ s) (high : s < g.size) :
    ∃ p ∈ rules, p.start ≤ s ∧ s < p.past := by
  obtain ⟨_, member, within⟩ := ruled.row.covers low high
  obtain ⟨r, rule, rfl⟩ := List.mem_map.mp member
  exact ⟨r, rule, within⟩

theorem ruled_nil : Ruled (Graph.withInitial {}).1 [] where
  row := rfl
  initial := rfl
  shape p member := by cases member
  stop p member := by cases member
  inner p member := by cases member
  frame := rfl

theorem frame_acceptAt {s : Nat} {kind : Kind} :
    ({ g.acceptAt s kind with states := #[] } : Graph) = { g with states := #[] } := rfl

theorem frame_linkEpsilon {source target : Nat} :
    ({ g.linkEpsilon source target with states := #[] } : Graph) = { g with states := #[] } := rfl

/-- A graph grows by a fragment, which then ends in a match and is linked to the initial state. -/
theorem Ruled.add {built : Graph} {stop : Nat} {texts : Language Char} {kind : Kind} (ruled : Ruled g rules)
    (made : Constructed g built stop texts) :
    Ruled ((built.acceptAt stop kind).linkEpsilon 0 g.size)
      (rules ++ [⟨⟨g.size, stop, built.size, texts⟩, kind⟩]) := by
  obtain ⟨stopLow, stopHigh⟩ := made.stop_bounds
  have positive := ruled.size_pos
  generalize linked : (built.acceptAt stop kind).linkEpsilon 0 g.size = after
  have size : after.size = built.size := by
    rw [← linked, size_linkEpsilon, acceptAt, size_alter]
  have others : ∀ s : Nat, s ≠ 0 → s ≠ stop → after.state s = built.state s := by
    intro s notZero notStop
    rw [← linked, state_linkEpsilon_other notZero, acceptAt, state_alter_other notStop]
  have old : ∀ s : Nat, s ≠ 0 → s < g.size → after.state s = g.state s := by
    intro s notZero low
    rw [others s notZero (by omega), made.grown.kept s low]
  have stopEdges : (after.state stop).moves = (built.state stop).moves ∧
      (after.state stop).next = (built.state stop).next := by
    rw [← linked, state_linkEpsilon_other (by omega), acceptAt, state_alter_same stopHigh]
    exact ⟨rfl, rfl⟩
  have shape : Shape after g.size stop built.size texts := by
    refine made.shape.congr (fun s low high inner => ?_) stopEdges.1 stopEdges.2
    rw [others s (by omega) inner]
    exact ⟨rfl, rfl, rfl⟩
  have keptShape : ∀ p ∈ rules, Shape after p.start p.stop p.past p.texts := by
    intro p member
    have within := ruled.within member
    have bounds := ruled.lt_past p member
    refine (ruled.shape p member).congr (fun s low high _ => ?_) ?_ ?_
    · rw [old s (by omega) (by omega)]
      exact ⟨rfl, rfl, rfl⟩
    all_goals rw [old p.stop (by omega) (by omega)]
  have stopState : after.state stop = { isFinal := true, kind := some kind } := by
    have blank := made.grown.fresh stop stopLow stopHigh
    have enclosed := made.shape.enclosed
    have moves := enclosed.idle stop stopLow stopHigh enclosed.stop_next
    unfold Unmarked at blank
    rw [moves, enclosed.stop_next, made.loose] at blank
    rw [← linked, state_linkEpsilon_other (by omega), acceptAt, state_alter_same stopHigh, blank]
    rfl
  constructor
  · rw [List.map_append, size]
    exact ruled.row.snoc rfl
  · have above : ∀ y : Nat, y ∈ (g.state 0).epsilon → y < g.size := by
      intro y member
      rw [ruled.initial] at member
      obtain ⟨p, rule, rfl⟩ := List.mem_map.mp member
      have := ruled.within rule
      have := ruled.lt_past p rule
      omega
    have zero : (built.acceptAt stop kind).state 0 = g.state 0 := by
      rw [acceptAt, state_alter_other (by omega), made.grown.kept 0 (by omega)]
    have inside : 0 < (built.acceptAt stop kind).size := by
      rw [acceptAt, size_alter]
      omega
    rw [← linked, state_linkEpsilon_same inside, zero, insertNat_above above, ruled.initial, List.map_append]
    rfl
  · intro p member
    rcases List.mem_append.mp member with there | last
    · exact keptShape p there
    · obtain rfl := List.mem_singleton.mp last
      exact shape
  · intro p member
    rcases List.mem_append.mp member with there | last
    · have within := ruled.within there
      have bounds := ruled.lt_past p there
      rw [old p.stop (by omega) (by omega)]
      exact ruled.stop p there
    · obtain rfl := List.mem_singleton.mp last
      exact stopState
  · intro p member s low high inner
    rcases List.mem_append.mp member with there | last
    · have within := ruled.within there
      rw [old s (by omega) (by omega)]
      exact ruled.inner p there s low high inner
    · obtain rfl := List.mem_singleton.mp last
      have lower : g.size ≤ s := low
      have upper : s < built.size := high
      have notStop : s ≠ stop := inner
      rw [others s (by omega) notStop]
      exact made.grown.fresh s lower upper
  · rw [← linked, frame_linkEpsilon, frame_acceptAt, made.grown.frame, ruled.frame]

theorem addRule_outcome {settings : BuildSettings} {kind : Kind} {r : Regex} {initial : StateId} :
    (g.addRule settings initial kind r).outcome = (g.build settings r).outcome := by
  unfold addRule
  dsimp only
  split
  · rfl
  · rfl

theorem addRule_graph {settings : BuildSettings} {kind : Kind} {r : Regex} {initial : StateId} {f : Fragment}
    (ok : (g.build settings r).outcome = .ok f) :
    (g.addRule settings initial kind r).graph =
      ((g.build settings r).graph.acceptAt f.stop kind).linkEpsilon initial f.start := by
  unfold addRule
  dsimp only
  rw [ok]

/-- Each rule makes a piece with its kind and its texts. -/
theorem addRules_ruled {defs : Definitions} {unicodeInput : Bool} {rest : List Rule} {after : Graph}
    (ruled : Ruled g rules) (ok : addRules defs unicodeInput 0 g rest = .ok after) :
    ∃ pieces, Ruled after (rules ++ pieces) ∧
      pieces.map (fun p => (p.kind, p.texts)) = rest.map fun r => (r.kind, r.texts defs) := by
  induction rest generalizing g rules with
  | nil =>
    obtain rfl := Except.ok.inj ok
    exact ⟨[], by rwa [List.append_nil], rfl⟩
  | cons r others ih =>
    unfold addRules at ok
    dsimp only at ok
    split at ok
    · rename_i f outcome
      rw [addRule_outcome] at outcome
      obtain ⟨start, made⟩ := build_ok outcome
      rw [addRule_graph outcome, start] at ok
      obtain ⟨pieces, whole, same⟩ := ih (@Ruled.add _ _ _ _ _ r.kind ruled made) ok
      rw [List.append_assoc] at whole
      exact ⟨_ :: pieces, whole, congrArg (_ :: ·) same⟩
    · cases ok

/-- The graph of rules consists of one piece for each of them. -/
theorem ofRules_ruled {defs : Definitions} {unicodeInput : Bool} {list : List Rule}
    (ok : ofRules defs unicodeInput list = .ok g) :
    ∃ pieces, Ruled g pieces ∧
      pieces.map (fun p => (p.kind, p.texts)) = list.map fun r => (r.kind, r.texts defs) := by
  obtain ⟨pieces, ruled, same⟩ := addRules_ruled ruled_nil ok
  exact ⟨pieces, ruled, same⟩

/-! ### What the paths read -/

/-- A path that begins in a rule stays in it; to the stop state it is a way. -/
theorem Ruled.path_within (ruled : Ruled g rules) {p : RulePiece} (member : p ∈ rules) {s f : Nat}
    {text : List Char} (path : g.Path s text f) (low : p.start ≤ s) (high : s < p.past) :
    (p.start ≤ f ∧ f < p.past) ∧ (f = p.stop → Way g p.stop s text) :=
  (ruled.shape p member).enclosed.path_within (by rw [ruled.stop p member]) path low high

theorem Ruled.kind_inner (ruled : Ruled g rules) {p : RulePiece} (member : p ∈ rules) {s : Nat} {k : Kind}
    (low : p.start ≤ s) (high : s < p.past) (kind : (g.state s).kind = some k) : s = p.stop ∧ k = p.kind := by
  by_cases atStop : s = p.stop
  · rw [atStop, ruled.stop p member] at kind
    exact ⟨atStop, (Option.some.inj kind).symm⟩
  · have blank := ruled.inner p member s low high atStop
    unfold Unmarked at blank
    rw [blank] at kind
    cases kind

/-- The paths from the initial state to matches of a kind read what the rules of that kind match. -/
theorem Ruled.path_iff (ruled : Ruled g rules) {text : List Char} {k : Kind} :
    (∃ f, g.Path 0 text f ∧ (g.state f).kind = some k) ↔ ∃ p ∈ rules, p.kind = k ∧ text ∈ p.texts := by
  constructor
  · rintro ⟨f, path, kind⟩
    cases path with
    | here =>
      rw [ruled.initial] at kind
      cases kind
    | epsilon edge after =>
      rw [ruled.initial] at edge
      obtain ⟨p, member, rfl⟩ := List.mem_map.mp edge
      obtain ⟨low, high⟩ := ruled.lt_past p member
      obtain ⟨⟨above, below⟩, way⟩ := ruled.path_within member after (Nat.le_refl _) (by omega)
      obtain ⟨atStop, same⟩ := ruled.kind_inner member above below kind
      refine ⟨p, member, same.symm, ?_⟩
      rw [← (ruled.shape p member).ways_eq]
      exact way atStop
    | move accepts edge after =>
      rw [ruled.initial] at edge
      cases edge
  · rintro ⟨p, member, rfl, matched⟩
    have way : Way g p.stop p.start text := by
      rw [← (ruled.shape p member).ways_eq] at matched
      exact matched
    have edge : p.start ∈ (g.state 0).epsilon := by
      rw [ruled.initial]
      exact List.mem_map.mpr ⟨p, member, rfl⟩
    exact ⟨p.stop, .epsilon edge way.path, by rw [ruled.stop p member]⟩

/-! ### Before closing -/

/-- A graph that nothing has been done to since it was built: states have moves or epsilon moves and not
both, and kinds stand in final states, which have neither. -/
structure Fresh (g : Graph) : Prop where
  initial : g.initial = some 0
  size_pos : 0 < g.size
  frame : g.merged = [] ∧ g.named = #[] ∧ g.groups = #[]
  marks : ∀ s : Nat, g.state s = {
    moves := (g.state s).moves, next := (g.state s).next, epsilon := (g.state s).epsilon,
    kind := (g.state s).kind, isFinal := (g.state s).isFinal }
  target : ∀ s q : Nat, q ∈ (g.state s).epsilon → q < g.size
  next : ∀ s n : Nat, (g.state s).next = some n → s < n ∧ n < g.size ∧ (g.state s).epsilon = [] ∧
    (g.state s).kind = none ∧ (g.state s).isFinal = false
  idle : ∀ s : Nat, (g.state s).next = none → (g.state s).moves = {}
  valid : ∀ s : Nat, (g.state s).moves.Valid
  final : ∀ s : Nat, (g.state s).isFinal = true → (g.state s).epsilon = []
  kind : ∀ (s : Nat) (k : Kind), (g.state s).kind = some k → (g.state s).isFinal = true

/-- A state is the initial one, or past the end, or lies in a rule as its stop or inside. -/
theorem Ruled.cases (ruled : Ruled g rules) (s : Nat) :
    g.state s = { epsilon := rules.map (·.start) } ∧ s = 0 ∨ g.state s = {} ∨
      ∃ p ∈ rules, p.start ≤ s ∧ s < p.past ∧
        (g.state s = { isFinal := true, kind := some p.kind } ∨ s ≠ p.stop ∧ Unmarked (g.state s)) := by
  rcases Nat.eq_zero_or_pos s with rfl | positive
  · exact .inl ⟨ruled.initial, rfl⟩
  rcases Nat.lt_or_ge s g.size with inside | beyond
  · obtain ⟨p, member, low, high⟩ := ruled.covers positive inside
    refine .inr (.inr ⟨p, member, low, high, ?_⟩)
    by_cases atStop : s = p.stop
    · exact .inl (atStop ▸ ruled.stop p member)
    · exact .inr ⟨atStop, ruled.inner p member s low high atStop⟩
  · exact .inr (.inl (state_of_size_le beyond))

theorem Ruled.fresh (ruled : Ruled g rules) : Fresh g where
  initial := congrArg Graph.initial ruled.frame
  size_pos := ruled.size_pos
  frame := ⟨congrArg Graph.merged ruled.frame, congrArg Graph.named ruled.frame,
    congrArg Graph.groups ruled.frame⟩
  marks s := by
    rcases ruled.cases s with ⟨state, _⟩ | state | ⟨p, _, _, _, state | ⟨_, blank⟩⟩
    · rw [state]
    · rw [state]
    · rw [state]
    · unfold Unmarked at blank
      rw [blank]
  target s q member := by
    rcases ruled.cases s with ⟨state, _⟩ | state | ⟨p, rule, low, high, state | ⟨inner, _⟩⟩
    · rw [state] at member
      obtain ⟨p, rule, rfl⟩ := List.mem_map.mp member
      have := ruled.within rule
      have := ruled.lt_past p rule
      omega
    · rw [state] at member
      cases member
    · rw [state] at member
      cases member
    · have := ruled.within rule
      have := (ruled.shape p rule).enclosed.epsilon s low high inner q member
      omega
  next s n goes := by
    rcases ruled.cases s with ⟨state, _⟩ | state | ⟨p, rule, low, high, state | ⟨inner, blank⟩⟩
    · rw [state] at goes
      cases goes
    · rw [state] at goes
      cases goes
    · rw [state] at goes
      cases goes
    · have within := ruled.within rule
      obtain ⟨step, below, _, bare⟩ := (ruled.shape p rule).enclosed.next s low high n goes
      unfold Unmarked at blank
      rw [blank]
      exact ⟨by omega, by omega, bare, rfl, rfl⟩
  idle s halts := by
    rcases ruled.cases s with ⟨state, _⟩ | state | ⟨p, rule, low, high, state | ⟨inner, _⟩⟩
    · rw [state]
    · rw [state]
    · rw [state]
    · exact (ruled.shape p rule).enclosed.idle s low high halts
  valid s := by
    rcases ruled.cases s with ⟨state, _⟩ | state | ⟨p, rule, low, high, state | ⟨inner, _⟩⟩
    · rw [state]
      exact Moves.valid_empty
    · rw [state]
      exact Moves.valid_empty
    · rw [state]
      exact Moves.valid_empty
    · exact (ruled.shape p rule).enclosed.valid s low high
  final s isFinal := by
    rcases ruled.cases s with ⟨state, _⟩ | state | ⟨p, _, _, _, state | ⟨_, blank⟩⟩
    · rw [state] at isFinal
      cases isFinal
    · rw [state]
    · rw [state]
    · unfold Unmarked at blank
      rw [blank] at isFinal
      cases isFinal
  kind s k kind := by
    rcases ruled.cases s with ⟨state, _⟩ | state | ⟨p, _, _, _, state | ⟨_, blank⟩⟩
    · rw [state] at kind
      cases kind
    · rw [state] at kind
      cases kind
    · rw [state]
    · unfold Unmarked at blank
      rw [blank] at kind
      cases kind

end Graph

end TokenTables.Automaton
