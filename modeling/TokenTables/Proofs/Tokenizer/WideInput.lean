import Mathlib.Data.Set.List
import TokenTables.Proofs.Tokenizer.Destinations
import TokenTables.Proofs.Tokenizer.OwnMatch

/-!
Characters above U+FFFF. The tables hold no such character, and an entry turns it down, unless the dispatch method of the
entry has rows that share their low bytes: then the high part of the character is looked up past the end of a row, and
there is no answer. Nothing else that is looked up while a text is read is out of range.
-/

namespace TokenTables

open Automaton (BeyondTable DispatchTable Entry EntryName Graph MoveEntry StateId except_bind_ok mapM_eq_ok_iff)

/-! ### Dispatch -/

namespace Automaton

theorem DispatchTable.Serves.accepts_wide {t : DispatchTable} {method : DispatchMethod} {m : Moves} {place : Nat}
    (serves : Serves t method m) (known : t.methods[place]? = some method) {c : Char} (wide : Text.lastCode < c.toNat) :
    t.accepts place c = if method.shared.isEmpty then .ok false else .error ⟨c⟩ := by
  have high : 256 ≤ c.toNat / 256 := by
    have : 0xFFFF < c.toNat := wide
    omega
  have grouped := @groupRows_grouped (dispatchRows m) fun row member => (mem_dispatchRows.mp member).1
  have sharedRows := serves.shared
  unfold DispatchTable.accepts
  rw [known]
  dsimp only
  cases shared : method.shared with
  | nil =>
    have noSingle : method.singles.find? (fun e => e.1 == c.toNat / 256) = none := by
      rcases find?_forall₂ (p := fun e : Nat × Nat => e.1 == c.toNat / 256) (q := fun e => e.1 == c.toNat / 256)
        serves.singles (fun e row holds => by rw [holds.1]) with ⟨none, _⟩ | ⟨e, row, _, found, _⟩
      · exact none
      · have small := (mem_dispatchRows.mp (grouped.singles row (List.mem_of_find?_eq_some found))).1
        have same : row.1 = c.toNat / 256 := by simpa using List.find?_some found
        omega
    simp [noSingle]
  | cons e rest =>
    rw [shared] at sharedRows
    obtain ⟨row, _, holds, _, _⟩ := List.forall₂_cons_left_iff.mp sharedRows
    rw [if_pos (by simp [high, holds.1])]
    rfl

/-- The entry has a dispatch method with rows that share their low bytes. -/
def MoveEntry.SharesRows (e : MoveEntry) (t : DispatchTable) : Prop :=
  ∃ place method, e.dispatch = some place ∧ t.methods[place]? = some method ∧ method.shared ≠ []

/-- An entry without shared rows turns a wide character down, and one with shared rows gives no answer. -/
theorem Graph.Dispatched.accepts_wide {t : DispatchTable} {s : State} (dispatched : Dispatched t s) {c : Char}
    (wide : Text.lastCode < c.toNat) {e : MoveEntry} (same : e.dispatch = s.dispatch) :
    e.accepts t c = .ok false ∧ ¬ e.SharesRows t ∨ e.accepts t c = .error ⟨c⟩ ∧ e.SharesRows t := by
  have large : ¬ c.toNat < asciiEnd := by
    have : 0xFFFF < c.toNat := wide
    have : asciiEnd = 0x80 := rfl
    omega
  unfold MoveEntry.accepts MoveEntry.SharesRows
  rw [if_neg large, same]
  rcases dispatched with ⟨ascii, _, _⟩ | ⟨place, method, chosen, known, serves⟩
  · rw [ascii]
    exact .inl ⟨rfl, by simp⟩
  · rw [chosen]
    dsimp only
    rw [serves.accepts_wide known wide]
    cases shared : method.shared with
    | nil =>
      refine .inl ⟨rfl, ?_⟩
      rintro ⟨other, otherMethod, again, there, shares⟩
      obtain rfl := Option.some.inj again
      obtain rfl := Option.some.inj (known.symm.trans there)
      exact shares shared
    | cons first rest => exact .inr ⟨rfl, place, method, rfl, known, by simp [shared]⟩

end Automaton

namespace Tokenizer

variable {t : Tokenizer} {offset : Nat} {closed named g : Graph} {active : List StateId} {names : List EntryName}
  {text : List Char} {name : EntryName} {c : Char}

/-- The entry of this name has a dispatch method with rows that share their low bytes. -/
def SharesRows (t : Tokenizer) (name : EntryName) : Prop :=
  ∃ e, t.entries[name]? = some (.single e) ∧ e.SharesRows t.dispatch

/-- While a text is read from some names on, an entry is asked about a character. -/
inductive Asks (t : Tokenizer) : List EntryName → List Char → EntryName → Char → Prop where
  | here {active c rest name} (member : name ∈ active) : Asks t active (c :: rest) name c
  | later {active c rest kind next name d} (read : t.read c active = .ok (kind, next))
    (after : Asks t next rest name d) : Asks t active (c :: rest) name d

/-- The name has an entry with all that the entry refers to, and the entry turns wide characters down or shares rows. -/
structure Answers (t : Tokenizer) (name : EntryName) (e : MoveEntry) : Prop where
  entry : t.entries[name]? = some (.single e)
  method : ∀ place, e.dispatch = some place → t.dispatch.HasMethod place
  wide : ∀ c : Char, Text.lastCode < c.toNat → e.accepts t.dispatch c = .ok false ∧ ¬ t.SharesRows name ∨
    e.accepts t.dispatch c = .error ⟨c⟩ ∧ t.SharesRows name

/-- The name of a state has an entry. -/
theorem Exports.answers_name (exports : Exports t offset closed named g) {s : StateId}
    (known : (g.state s).name = some name) : ∃ e, t.Answers (name + offset) e := by
  rw [exports.name] at known
  obtain ⟨_, _, r, place, _⟩ := exports.labelled.known s name known
  have listed : g.named[name]? = some r := by
    rw [(named_of_frame exports.same.frame).1]
    exact place
  have entry := exports.entries name _ (entries_single listed)
  rw [Nat.add_comm, entry_eq] at entry
  have dispatched := exports.dispatched r (Array.mem_toList_iff.mpr (Array.mem_of_getElem? listed))
  refine ⟨_, entry, fun place chosen => ?_, fun c wide => ?_⟩
  · rcases dispatched with ⟨ascii, _, _⟩ | ⟨own, method, isOwn, there, serves⟩
    · cases ascii.symm.trans chosen
    · obtain rfl := Option.some.inj (isOwn.symm.trans chosen)
      exact serves.hasMethod there
  · have shares : ∀ e, t.entries[name + offset]? = some (.single e) →
        (t.SharesRows (name + offset) ↔ e.SharesRows t.dispatch) := by
      refine fun e isEntry => ⟨?_, fun shares => ⟨e, isEntry, shares⟩⟩
      rintro ⟨other, again, shares⟩
      obtain rfl := Entry.single.inj (Option.some.inj (isEntry.symm.trans again))
      exact shares
    rw [shares _ entry]
    exact dispatched.accepts_wide wide rfl

/-! ### Reading -/

/-- A wide character is accepted nowhere, or there is no answer. -/
theorem Exports.read_wide (exports : Exports t offset closed named g) (same : SameActive offset g active names)
    (wide : Text.lastCode < c.toNat) :
    t.read c names = .ok (none, []) ∧ (∀ n ∈ names, ¬ t.SharesRows n) ∨
      t.read c names = .error ⟨c⟩ ∧ ∃ n ∈ names, t.SharesRows n := by
  have each : ∀ n ∈ names, (∀ reached, t.readIn c reached n = .ok reached) ∧ ¬ t.SharesRows n ∨
      (∀ reached, t.readIn c reached n = .error ⟨c⟩) ∧ t.SharesRows n := by
    intro n member
    obtain ⟨s, _, m, known, rfl⟩ := same.mem_iff.mp member
    obtain ⟨e, answers⟩ := exports.answers_name known
    refine (answers.wide c wide).imp (fun ⟨turned, unshared⟩ => ⟨fun reached => ?_, unshared⟩)
      fun ⟨fails, shared⟩ => ⟨fun reached => ?_, shared⟩
    · unfold readIn
      rw [answers.entry]
      dsimp only
      rw [turned]
      rfl
    · unfold readIn
      rw [answers.entry]
      dsimp only
      rw [fails]
      rfl
  have all : ∀ (names : List EntryName) (reached : Option Kind × List EntryName),
      (∀ n ∈ names, (∀ reached, t.readIn c reached n = .ok reached) ∧ ¬ t.SharesRows n ∨
        (∀ reached, t.readIn c reached n = .error ⟨c⟩) ∧ t.SharesRows n) →
      names.foldlM (t.readIn c) reached = .ok reached ∧ (∀ n ∈ names, ¬ t.SharesRows n) ∨
        names.foldlM (t.readIn c) reached = .error ⟨c⟩ ∧ ∃ n ∈ names, t.SharesRows n := by
    intro names
    induction names with
    | nil => exact fun reached _ => .inl ⟨rfl, by simp⟩
    | cons n rest ih =>
      intro reached each
      obtain ⟨here, later⟩ := List.forall_mem_cons.mp each
      rw [List.foldlM_cons]
      rcases here with ⟨turned, unshared⟩ | ⟨fails, shared⟩
      · rw [turned reached]
        rcases ih reached later with ⟨result, unsharedRest⟩ | ⟨result, m, member, shared⟩
        · exact .inl ⟨result, List.forall_mem_cons.mpr ⟨unshared, unsharedRest⟩⟩
        · exact .inr ⟨result, m, List.mem_cons_of_mem _ member, shared⟩
      · rw [fails reached]
        exact .inr ⟨rfl, n, List.mem_cons_self, shared⟩
  exact all names (none, []) each

theorem asks_nil {d : Char} : ¬ Asks t [] text name d := by
  intro asks
  generalize none : ([] : List EntryName) = active at asks
  induction asks with
  | here member =>
    rw [← none] at member
    cases member
  | later read _ ih =>
    rw [← none] at read
    obtain ⟨_, rfl⟩ := Prod.mk.inj (Except.ok.inj read)
    exact ih rfl

/-- What is asked about the first character or later. -/
theorem asks_cons {rest : List Char} {d : Char} : Asks t names (c :: rest) name d ↔
    name ∈ names ∧ d = c ∨ ∃ kind next, t.read c names = .ok (kind, next) ∧ Asks t next rest name d := by
  constructor
  · intro asks
    cases asks with
    | here member => exact .inl ⟨member, rfl⟩
    | later read after => exact .inr ⟨_, _, read, after⟩
  · rintro (⟨member, rfl⟩ | ⟨kind, next, read, after⟩)
    · exact .here member
    · exact .later read after

/-- Every entry asked on the way is in the table. -/
theorem Exports.answers (exports : Exports t offset closed named g) (same : SameActive offset g active names)
    (asks : Asks t names text name c) : ∃ e, t.Answers name e := by
  induction text generalizing active names with
  | nil => cases asks
  | cons first rest ih =>
    rcases asks_cons.mp asks with ⟨member, rfl⟩ | ⟨kind, next, read, after⟩
    · obtain ⟨s, _, m, known, rfl⟩ := same.mem_iff.mp member
      exact exports.answers_name known
    · by_cases wide : Text.lastCode < first.toNat
      · rcases exports.read_wide same wide with ⟨turned, _⟩ | ⟨fails, _⟩
        · rw [turned] at read
          obtain ⟨_, rfl⟩ := Prod.mk.inj (Except.ok.inj read)
          exact absurd after asks_nil
        · rw [fails] at read
          cases read
      · obtain ⟨reached, result, sameNext⟩ := exports.read same (Nat.le_of_not_lt wide)
        rw [result] at read
        obtain ⟨_, rfl⟩ := Prod.mk.inj (Except.ok.inj read)
        exact ih sameNext after

/-- A run gives an answer unless an entry that shares rows is asked about a wide character. -/
theorem Exports.run_ok_iff (exports : Exports t offset closed named g) (same : SameActive offset g active names)
    (consumed : Nat) (last : Option Match) (text : List Char) : (∃ found, t.run consumed names last text = .ok found) ↔
      ∀ name c, Asks t names text name c → Text.lastCode < c.toNat → ¬ t.SharesRows name := by
  induction text generalizing active names consumed last with
  | nil =>
    refine ⟨fun _ name c asks => ?_, fun _ => ⟨last, rfl⟩⟩
    cases asks
  | cons first rest ih =>
    by_cases wide : Text.lastCode < first.toNat
    · rcases exports.read_wide same wide with ⟨turned, unshared⟩ | ⟨fails, n, member, shared⟩
      · constructor
        · intro _ name c asks _
          rcases asks_cons.mp asks with ⟨member, _⟩ | ⟨kind, next, read, after⟩
          · exact unshared name member
          · rw [turned] at read
            obtain ⟨_, rfl⟩ := Prod.mk.inj (Except.ok.inj read)
            exact absurd after asks_nil
        · intro _
          unfold Tokenizer.run
          rw [turned]
          exact ⟨_, rfl⟩
      · constructor
        · rintro ⟨found, ran⟩
          unfold Tokenizer.run at ran
          rw [fails] at ran
          cases ran
        · exact fun none => absurd shared (none n first (.here member) wide)
    · obtain ⟨next, read, sameNext⟩ := exports.read same (Nat.le_of_not_lt wide)
      have asked : (∀ name c, Asks t names (first :: rest) name c → Text.lastCode < c.toNat → ¬ t.SharesRows name) ↔
          ∀ name c, Asks t next rest name c → Text.lastCode < c.toNat → ¬ t.SharesRows name := by
        refine ⟨fun none name c asks => none name c (.later read asks), fun none name c asks isWide => ?_⟩
        rcases asks_cons.mp asks with ⟨_, rfl⟩ | ⟨kind, again, same, after⟩
        · exact absurd isWide wide
        · rw [read] at same
          obtain ⟨_, rfl⟩ := Prod.mk.inj (Except.ok.inj same)
          exact none name c after isWide
      rw [asked]
      unfold Tokenizer.run
      rw [read]
      show (∃ found, (if next.isEmpty = true then _ else _) = Except.ok found) ↔ _
      by_cases stops : next = []
      · rw [if_pos (List.isEmpty_iff.mpr stops), stops]
        exact ⟨fun _ name c asks => absurd asks asks_nil, fun _ => ⟨_, rfl⟩⟩
      · rw [if_neg (mt List.isEmpty_iff.mp stops)]
        exact ih sameNext _ _

/-! ### Lexical states -/

/-- What is looked up while a lexical state matches a text: the entries read from its first name on, and those read
behind each of its literals that the text begins with. -/
inductive Looks (t : Tokenizer) (state : Nat) (text : List Char) (name : EntryName) (c : Char) : Prop where
  | automaton {s} (present : t.states[state]? = some s) (asks : Asks t (t.opening s.initial) text name c)
  | literal {first rest e} (read : text = first :: rest) (entered : e ∈ t.literals.beginningWith state first)
    (begins : e.begins text = true)
    (asks : Asks t (t.opening (t.literals.startStates[(state, e.kind)]?)) (text.drop e.chars.length) name c)

theorem mapM_ok_iff {α β ε : Type} (f : α → Except ε β) (xs : List α) :
    (∃ ys, xs.mapM f = .ok ys) ↔ ∀ x ∈ xs, ∃ y, f x = .ok y := by
  have ranged : (∃ ys, xs.mapM f = .ok ys) ↔ xs.map f ∈ Set.range (List.map Except.ok) :=
    exists_congr fun ys => mapM_eq_ok_iff.trans eq_comm
  rw [ranged, Set.range_list_map, Set.mem_ofPred_eq, List.forall_mem_map]
  exact forall₂_congr fun x _ => exists_congr fun y => eq_comm

/-- From each name that a lexical state starts at the table reads as a graph does. -/
structure StartsIn (t : Tokenizer) (state offset : Nat) (closed named g : Graph) : Prop where
  exports : Exports t offset closed named g
  automaton : ∀ s, t.states[state]? = some s → ∃ active, SameActive offset g active (t.opening s.initial)
  literals : ∀ k : Kind, ∃ active, SameActive offset g active (t.opening (t.literals.startStates[(state, k)]?))

variable {state : Nat}

theorem StartsIn.answers (starts : t.StartsIn state offset closed named g) (looks : t.Looks state text name c) :
    ∃ e, t.Answers name e := by
  cases looks with
  | automaton present asks =>
    obtain ⟨active, same⟩ := starts.automaton _ present
    exact starts.exports.answers same asks
  | literal _ _ _ asks =>
    obtain ⟨active, same⟩ := starts.literals _
    exact starts.exports.answers same asks

/-- A literal is followed up unless an entry that shares rows is asked about a wide character behind it. -/
theorem StartsIn.literalMatches_ok_iff (starts : t.StartsIn state offset closed named g) (e : Candidate) :
    (∃ found, t.literalMatches state text e = .ok found) ↔ (e.begins text = true → ∀ name c,
      Asks t (t.opening (t.literals.startStates[(state, e.kind)]?)) (text.drop e.chars.length) name c →
        Text.lastCode < c.toNat → ¬ t.SharesRows name) := by
  obtain ⟨active, same⟩ := starts.literals e.kind
  have longer := starts.exports.run_ok_iff same e.chars.length none (text.drop e.chars.length)
  unfold literalMatches
  by_cases begins : e.begins text = true
  · rw [if_pos begins, forall_prop_of_true begins, ← longer, runFrom_eq_run]
    constructor
    · rintro ⟨found, ran⟩
      obtain ⟨m, run, _⟩ := except_bind_ok ran
      exact ⟨m, run⟩
    · rintro ⟨m, run⟩
      rw [run]
      exact ⟨_, rfl⟩
  · rw [if_neg begins]
    exact ⟨fun _ again => absurd again begins, fun _ => ⟨_, rfl⟩⟩

/-- A lexical state has an answer unless an entry that shares rows is asked about a wide character. -/
theorem StartsIn.longestMatch_ok_iff (starts : t.StartsIn state offset closed named g) {s : LexicalState}
    (present : t.states[state]? = some s) : (∃ found, t.longestMatch state text = .ok found) ↔
      ∀ name c, t.Looks state text name c → Text.lastCode < c.toNat → ¬ t.SharesRows name := by
  obtain ⟨active, same⟩ := starts.automaton s present
  have automaton := starts.exports.run_ok_iff same 0 none text
  have run : t.runFrom s.initial 0 text = t.run 0 (t.opening s.initial) none text := by
    rw [runFrom_eq_run, List.drop_zero]
  have offered : (∃ found, t.longestMatch state text = .ok found) ↔ ∃ found, t.offers state s text = .ok found := by
    unfold longestMatch
    rw [present]
    dsimp only
    cases t.offers state s text with
    | error e => exact ⟨fun ⟨_, never⟩ => (nomatch never), fun ⟨_, never⟩ => (nomatch never)⟩
    | ok found => exact ⟨fun _ => ⟨found, rfl⟩, fun _ => ⟨_, rfl⟩⟩
  rw [offered]
  unfold offers
  cases text with
  | nil =>
    refine ⟨fun _ name c looks => ?_, fun _ => ⟨_, rfl⟩⟩
    cases looks with
    | automaton _ asks => cases asks
    | literal read => cases read
  | cons first rest =>
    have literals := (mapM_ok_iff (t.literalMatches state (first :: rest)) (t.literals.beginningWith state first)).trans
      (forall₂_congr fun e _ => starts.literalMatches_ok_iff e)
    have both : (∃ found, t.offers state s (first :: rest) = .ok found) ↔
        (∃ found, t.run 0 (t.opening s.initial) none (first :: rest) = .ok found) ∧
          ∃ found, (t.literals.beginningWith state first).mapM (t.literalMatches state (first :: rest)) = .ok found := by
      unfold offers
      dsimp only
      rw [run]
      constructor
      · rintro ⟨found, ran⟩
        obtain ⟨m, ofAutomaton, ran⟩ := except_bind_ok ran
        obtain ⟨ms, ofLiterals, _⟩ := except_bind_ok ran
        exact ⟨⟨m, ofAutomaton⟩, ms, ofLiterals⟩
      · rintro ⟨⟨m, ofAutomaton⟩, ms, ofLiterals⟩
        rw [ofAutomaton, ofLiterals]
        exact ⟨_, rfl⟩
    refine both.trans ?_
    rw [automaton, literals]
    constructor
    · rintro ⟨inAutomaton, inLiterals⟩ name c (⟨again, asks⟩ | ⟨read, entered, begins, asks⟩)
      · obtain rfl := Option.some.inj (present.symm.trans again)
        exact inAutomaton name c asks
      · obtain ⟨rfl, rfl⟩ := List.cons.inj read
        exact inLiterals _ entered begins name c asks
    · exact fun all => ⟨fun name c asks => all name c (.automaton present asks),
        fun e entered begins name c asks => all name c (.literal rfl entered begins asks)⟩

end Tokenizer

/-! ### Generated tokenizers -/

variable {g : Grammar} {options : GenerationOptions} {made : Generation} {state : Nat} {text : List Char}

namespace Assembly

theorem Placed.startsIn {offset : Nat} {update : LiteralIndex.TableUpdate} {a : Assembly} {t : Tokenizer}
    (placed : Placed g options state offset update a) (sound : Sound g options state) (tables : HasTables a t)
    {s : LexicalState} (present : t.states[state]? = some s) (isState : StateOf g options state offset update s) :
    t.StartsIn state offset (closedGraph g options state) (groupedGraph g options state update) update.graph := by
  obtain ⟨exports, more⟩ := placed.exports sound tables
  refine ⟨exports, fun again there => ?_, fun k => ?_⟩
  · obtain rfl := Option.some.inj (present.symm.trans there)
    rw [isState.initial]
    exact ⟨_, exports.opening (sound.opening.moreGroups more)⟩
  · rw [tables.literals, placed.starts]
    cases start : update.tables.startStates[(state, k)]? with
    | none => exact ⟨[], fun s none => absurd none List.not_mem_nil, .nil⟩
    | some name =>
      obtain ⟨table, _, registers⟩ := placed.graph
      obtain ⟨n, rfl, members, stands, ordered, small⟩ := registers.starts k name start
      exact ⟨_, exports.sameActive stands ordered small⟩

theorem startsIn (generated : generate g options = .ok made) (inside : state < made.tokenizer.states.length) :
    ∃ offset closed named graph, made.tokenizer.StartsIn state offset closed named graph := by
  obtain ⟨passes, tables⟩ := generate_ok generated
  rw [tables] at inside ⊢
  rw [length_tokenizer_states passes] at inside
  obtain ⟨offset, update, s, placed, present, isState⟩ := tokenizer_placed passes inside
  exact ⟨_, _, _, _, placed.startsIn (sound_of_passes passes state) ⟨rfl, rfl, rfl⟩ present isState⟩

end Assembly

/-- Tokenizing has no answer exactly where, at a place that the loop comes to, an entry that shares rows is asked about
a wide character. All that is looked up is there, every other entry turns wide characters down, and every match lies
within the text. -/
theorem tokenizing_answers (generated : generate g options = .ok made) (text : List Char) :
    (∀ state < made.tokenizer.states.length,
      (∀ name c, made.tokenizer.Looks state text name c → ∃ e, made.tokenizer.Answers name e) ∧
      (∀ m, made.tokenizer.longestMatch state text = .ok (some m) → m.length ≤ text.length) ∧
      ((∃ found, made.tokenizer.longestMatch state text = .ok found) ↔ ∀ name c,
        made.tokenizer.Looks state text name c → Text.lastCode < c.toNat → ¬ made.tokenizer.SharesRows name)) ∧
    (∀ last, made.tokenizer.Reaches { rest := text } last → last.lexState < made.tokenizer.states.length) ∧
    ((∃ cause, made.tokenizer.tokenize text = .error (.beyondTable cause)) ↔
      ∃ last, made.tokenizer.Reaches { rest := text } last ∧ last.rest ≠ [] ∧ ∃ name c,
        made.tokenizer.Looks last.lexState last.rest name c ∧ Text.lastCode < c.toNat ∧
          made.tokenizer.SharesRows name) := by
  have answers : ∀ state < made.tokenizer.states.length, ∀ text : List Char,
      (∃ found, made.tokenizer.longestMatch state text = .ok found) ↔ ∀ name c,
        made.tokenizer.Looks state text name c → Text.lastCode < c.toNat → ¬ made.tokenizer.SharesRows name := by
    intro state inside text
    obtain ⟨_, _, _, _, starts⟩ := Assembly.startsIn generated inside
    exact starts.longestMatch_ok_iff (List.getElem?_eq_getElem inside)
  refine ⟨fun state inside => ⟨fun name c looks => ?_, fun m found => Tokenizer.longestMatch_length found,
    answers state inside text⟩, fun last => lexState_lt generated, ?_, ?_⟩
  · obtain ⟨_, _, _, _, starts⟩ := Assembly.startsIn generated inside
    exact starts.answers looks
  · rintro ⟨cause, fails⟩
    obtain ⟨last, reaches, unread, stops⟩ := Tokenizer.tokensFrom_error_iff.mp fails
    refine ⟨last, reaches, unread, ?_⟩
    by_contra none
    obtain ⟨found, ran⟩ := (answers last.lexState (lexState_lt generated reaches) last.rest).mpr
      fun name c looks wide shares => none ⟨name, c, looks, wide, shares⟩
    rw [Tokenizer.longestMatch_of_beyondTable stops] at ran
    cases ran
  · rintro ⟨last, reaches, unread, name, c, looks, wide, shares⟩
    cases ran : made.tokenizer.longestMatch last.lexState last.rest with
    | ok found =>
      exact absurd shares
        ((answers last.lexState (lexState_lt generated reaches) last.rest).mp ⟨found, ran⟩ name c looks wide)
    | error cause =>
      refine ⟨cause, Tokenizer.tokensFrom_error_iff.mpr ⟨last, reaches, unread, ?_⟩⟩
      unfold Tokenizer.advance
      rw [ran]

/-- A token of one letter, out of two rows of the same low bytes. -/
def twoRows : Grammar where
  states := ["DEFAULT"]
  productions := [⟨.token, none, false,
    [⟨.regex ⟨1, none, false, .charClass .unknown ⟨false, [.range '\u0100' '\u02FF']⟩⟩, none, none, .unknown⟩], .unknown⟩]

set_option maxRecDepth 4000 in
theorem twoRows_no_answer : ∃ made, generate twoRows { unicodeInput := true } = .ok made ∧
    made.tokenizer.tokenize ['😀'] = .error (.beyondTable ⟨'😀'⟩) ∧
    ∃ last, made.tokenizer.Reaches { rest := ['😀'] } last ∧ last.rest ≠ [] ∧ ∃ name c,
      made.tokenizer.Looks last.lexState last.rest name c ∧ Text.lastCode < c.toNat ∧ made.tokenizer.SharesRows name := by
  have fails : (generate twoRows { unicodeInput := true }).map (fun made => made.tokenizer.tokenize ['😀']) =
      .ok (.error (.beyondTable ⟨'😀'⟩)) := by
    cbv
  cases generated : generate twoRows { unicodeInput := true } with
  | error e =>
    rw [generated] at fails
    cases fails
  | ok made =>
    rw [generated] at fails
    have noAnswer := Except.ok.inj fails
    exact ⟨made, rfl, noAnswer, (tokenizing_answers generated ['😀']).2.2.mp ⟨_, noAnswer⟩⟩

end TokenTables
