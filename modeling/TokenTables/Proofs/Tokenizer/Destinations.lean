import TokenTables.Proofs.Grammar.Rules
import TokenTables.Proofs.Tokenizer.Assembly
import TokenTables.Proofs.Tokenizer.Scan

/-!
Where matches lead. A kind leads to a lexical state of the grammar, so the loop that takes the matches of a generated
tokenizer stays among its lexical states.
-/

namespace TokenTables

variable {g : Grammar} {options : GenerationOptions} {bound state : Nat}

theorem KindTables.destination_lt {r : TokenRule} {n : Nat} (leads : KindTables.destination g r = some n) :
    n < g.states.length := by
  obtain ⟨name, _, place⟩ := Option.bind_eq_some_iff.mp leads
  exact Grammar.stateIndex?_lt place

/-- The kind leads nowhere, or to one of the first lexical states. -/
def KindSlot.LeadsWithin (bound : Nat) (s : KindSlot) : Prop := ∀ n, s.nextState = some n → n < bound

namespace KindTables

variable {k : KindTables}

/-- Every kind leads nowhere or to one of the first lexical states. -/
def LeadsWithin (bound : Nat) (k : KindTables) : Prop := ∀ s ∈ k.slots, s.LeadsWithin bound

theorem LeadsWithin.alter (within : k.LeadsWithin bound) (kind : Kind) {change : KindSlot → KindSlot}
    (keeps : ∀ s, s.LeadsWithin bound → (change s).LeadsWithin bound) : (k.alter kind change).LeadsWithin bound := by
  intro s member
  obtain ⟨i, place⟩ := Array.getElem?_of_mem member
  unfold KindTables.alter at place
  dsimp only at place
  rw [Array.getElem?_modify] at place
  split at place
  · obtain ⟨before, there, rfl⟩ := Option.map_eq_some_iff.mp place
    exact keeps before (within before (Array.mem_of_getElem? there))
  · exact within s (Array.mem_of_getElem? place)

theorem forGrammar_leadsWithin (g : Grammar) : (forGrammar g).LeadsWithin bound := by
  intro s member n leads
  obtain rfl := Array.eq_of_mem_replicate member
  cases leads

theorem LeadsWithin.endOfInput (within : k.LeadsWithin g.states.length) :
    (k.endOfInput g).LeadsWithin g.states.length := by
  refine List.foldlRecOn (motive := fun k : KindTables => k.LeadsWithin g.states.length) _ _ within
    fun k before r _ => ?_
  dsimp only
  split
  · exact before.alter _ fun s _ n leads => destination_lt leads
  · exact before

theorem LeadsWithin.declare (within : k.LeadsWithin bound) (ignoreCase : Bool) (t : TokenDef) :
    (k.declare state ignoreCase t).LeadsWithin bound := within.alter _ fun _ before => before

theorem sortKind_slots (k : KindTables) (state : Nat) (d : Disposition) (kind : Kind) :
    (k.sortKind state d kind).slots = k.slots := by
  cases d <;> rfl

theorem LeadsWithin.takeRule (within : k.LeadsWithin g.states.length) (d : Disposition) (r : TokenRule) (kind : Kind) :
    (k.takeRule g state d r kind).LeadsWithin g.states.length := by
  have noted : (k.noteRule g state d r kind).LeadsWithin g.states.length := by
    refine within.alter kind fun s before n leads => ?_
    rcases Option.or_eq_some_iff.mp leads with here | ⟨_, earlier⟩
    · exact destination_lt (Option.filter_eq_some_iff.mp here).1
    · exact before n earlier
  unfold KindTables.takeRule LeadsWithin
  rwa [sortKind_slots]

/-- Takes in a rule as a lexical state does. -/
def takeDeclared (g : Grammar) (state : Nat) (k : KindTables) (r : DeclaredRule) : KindTables :=
  let k := k.declare state r.ignoreCase r.regex
  if r.regex.isPrivate then k else k.takeRule g state r.disposition r.rule r.regex.kind

theorem LeadsWithin.takeDeclared (within : k.LeadsWithin g.states.length) (r : DeclaredRule) :
    (k.takeDeclared g state r).LeadsWithin g.states.length := by
  have declared : (k.declare state r.ignoreCase r.regex).LeadsWithin g.states.length := within.declare r.ignoreCase r.regex
  unfold KindTables.takeDeclared
  dsimp only
  split
  · exact declared
  · exact declared.takeRule _ _ _

end KindTables

namespace Assembly

theorem addRule_kinds (a : Assembly) (d : StateDraft) (r : DeclaredRule) :
    (addRule g options state 0 (a, d) r).1.kinds = a.kinds.takeDeclared g state r := by
  unfold addRule KindTables.takeDeclared
  dsimp only
  split
  · rfl
  · unfold addPublic
    cases literalOf? options r with
    | some l => rfl
    | none =>
      dsimp only
      split <;> rfl

theorem takenRules_kinds (a : Assembly) :
    (takenRules g options state a).kinds = (g.rulesIn state).foldl (KindTables.takeDeclared g state) a.kinds := by
  have all : ∀ (rules : List DeclaredRule) (a : Assembly) (d : StateDraft),
      (rules.foldl (addRule g options state 0) (a, d)).1.kinds =
        rules.foldl (KindTables.takeDeclared g state) a.kinds := by
    intro rules
    induction rules with
    | nil => exact fun a d => rfl
    | cons r rest ih =>
      intro a d
      rw [List.foldl_cons, List.foldl_cons, ← @addRule_kinds g options state a d r]
      exact ih _ _
  exact all (g.rulesIn state) a (blankDraft options)

/-- A lexical state has its rules taken in; closing it counts for the features alone. -/
theorem addState_kinds (g : Grammar) (options : GenerationOptions) (a : Assembly) (name : String) (state : Nat) :
    ∃ features, (addState g options a name state).kinds =
      { (g.rulesIn state).foldl (KindTables.takeDeclared g state) a.kinds with features } := by
  rw [← @takenRules_kinds g options, addState_eq]
  unfold finishState
  dsimp only
  split
  · exact ⟨_, rfl⟩
  · exact ⟨_, rfl⟩

/-- What the kinds lead to is kept through the rules of a lexical state. -/
theorem addState_leadsWithin {a : Assembly} (within : a.kinds.LeadsWithin g.states.length) (name : String) :
    (addState g options a name state).kinds.LeadsWithin g.states.length := by
  obtain ⟨features, kinds⟩ := addState_kinds g options a name state
  have taken : ((g.rulesIn state).foldl (KindTables.takeDeclared g state) a.kinds).LeadsWithin g.states.length :=
    List.foldlRecOn (motive := fun k : KindTables => k.LeadsWithin g.states.length) _ _ within
      fun k before r _ => before.takeDeclared r
  rw [kinds]
  exact taken

theorem ofGrammar_leadsWithin (g : Grammar) (options : GenerationOptions) :
    (ofGrammar g options).kinds.LeadsWithin g.states.length := by
  have begun : ((KindTables.forGrammar g).endOfInput g).LeadsWithin g.states.length :=
    (KindTables.forGrammar_leadsWithin g).endOfInput
  exact List.foldlRecOn (motive := fun a : Assembly => a.kinds.LeadsWithin g.states.length) _ _ begun
    fun a before p _ => addState_leadsWithin before p.1

end Assembly

/-- A kind of a generated tokenizer leads to a lexical state that it has. -/
theorem nextState?_lt {made : Generation} (generated : generate g options = .ok made) {k : Kind} {n : Nat}
    (leads : made.tokenizer.nextState? k = some n) : n < made.tokenizer.states.length := by
  obtain ⟨passes, tables⟩ := generate_ok generated
  rw [tables] at leads ⊢
  rw [Assembly.length_tokenizer_states passes]
  have place : ((Assembly.ofGrammar g options).kinds.slots.toList.map (·.nextState))[k]? = some (some n) :=
    Option.join_eq_some_iff.mp leads
  obtain ⟨s, member, next⟩ := List.mem_map.mp (List.mem_of_getElem? place)
  exact Assembly.ofGrammar_leadsWithin g options s (Array.mem_toList_iff.mp member) n next

theorem states_ne_nil {made : Generation} (generated : generate g options = .ok made) : g.states ≠ [] := by
  intro none
  have fails := (generate_fails_iff g options).2.mpr (.inl none)
  rw [generated] at fails
  obtain ⟨_, never⟩ := fails
  cases never

/-- Every lexical state that the loop comes to is one of the tokenizer's. -/
theorem lexState_lt {made : Generation} (generated : generate g options = .ok made) {text : List Char} {last : Scan}
    (reaches : made.tokenizer.Reaches { rest := text } last) : last.lexState < made.tokenizer.states.length := by
  induction reaches with
  | refl =>
    obtain ⟨passes, tables⟩ := generate_ok generated
    rw [tables, Assembly.length_tokenizer_states passes]
    exact List.length_pos_iff.mpr (states_ne_nil generated)
  | tail _ step ih =>
    obtain ⟨_, token, advances⟩ := step
    obtain ⟨m, _, rfl⟩ := Tokenizer.advance_ok advances
    show (made.tokenizer.nextState? m.kind).getD _ < _
    cases leads : made.tokenizer.nextState? m.kind with
    | none => exact ih
    | some n => exact nextState?_lt generated leads

end TokenTables
