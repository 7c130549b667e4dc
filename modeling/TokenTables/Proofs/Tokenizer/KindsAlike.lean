import TokenTables.Proofs.Tokenizer.Destinations
import TokenTables.Proofs.Tokenizer.OwnMatch

/-!
What becomes of matches. It is told by the rules of a grammar, apart from what they say about case, and by no option, so
tokenizers of one grammar that match the same give the same tokens.
-/

namespace TokenTables

/-- The rule without what its production says about case. -/
def DeclaredRule.caseless (r : DeclaredRule) : DeclaredRule := { r with ignoreCase := false }

/-- Grammars that differ at most in what their productions say about case. -/
structure Grammar.SameButForCase (g other : Grammar) : Prop where
  states : other.states = g.states
  rules : other.rules = g.rules
  declared : ∀ i, (other.rulesIn i).map DeclaredRule.caseless = (g.rulesIn i).map DeclaredRule.caseless

theorem Grammar.SameButForCase.refl (g : Grammar) : g.SameButForCase g := ⟨rfl, rfl, fun _ => rfl⟩

variable {g other : Grammar} {options settings : GenerationOptions} {i : Nat}

namespace KindTables

variable {k l : KindTables}

/-- Every kind has the same sort and leads to the same lexical state. -/
structure ActsAlike (k l : KindTables) : Prop where
  nextStates : ∀ n : Nat, (l.slots[n]?).map (·.nextState) = (k.slots[n]?).map (·.nextState)
  skipped : l.skipped = k.skipped
  unfinished : l.unfinished = k.unfinished
  specials : l.specials = k.specials
  tokens : l.tokens = k.tokens

theorem ActsAlike.refl (k : KindTables) : ActsAlike k k := ⟨fun _ => rfl, rfl, rfl, rfl, rfl⟩

theorem ActsAlike.symm (alike : ActsAlike k l) : ActsAlike l k :=
  ⟨fun n => (alike.nextStates n).symm, alike.skipped.symm, alike.unfinished.symm, alike.specials.symm, alike.tokens.symm⟩

theorem ActsAlike.trans {m : KindTables} (one : ActsAlike k l) (two : ActsAlike l m) : ActsAlike k m :=
  ⟨fun n => (two.nextStates n).trans (one.nextStates n), two.skipped.trans one.skipped,
    two.unfinished.trans one.unfinished, two.specials.trans one.specials, two.tokens.trans one.tokens⟩

theorem ActsAlike.alter (alike : ActsAlike k l) (kind : Kind) {change changeOther : KindSlot → KindSlot}
    (keeps : ∀ s t, t.nextState = s.nextState → (changeOther t).nextState = (change s).nextState) :
    ActsAlike (k.alter kind change) (l.alter kind changeOther) where
  nextStates n := by
    have same := alike.nextStates n
    unfold KindTables.alter
    dsimp only
    rw [Array.getElem?_modify, Array.getElem?_modify]
    split
    · cases own : k.slots[n]? with
      | none =>
        rw [own] at same
        rw [Option.map_eq_none_iff.mp same]
        rfl
      | some s =>
        rw [own] at same
        obtain ⟨t, there, next⟩ := Option.map_eq_some_iff.mp same
        rw [there]
        exact congrArg some (keeps s t next)
    · exact same
  skipped := alike.skipped
  unfinished := alike.unfinished
  specials := alike.specials
  tokens := alike.tokens

theorem ActsAlike.sortKind (alike : ActsAlike k l) (state : Nat) (d : Disposition) (kind : Kind) :
    ActsAlike (k.sortKind state d kind) (l.sortKind state d kind) where
  nextStates n := by
    rw [sortKind_slots, sortKind_slots]
    exact alike.nextStates n
  skipped := by cases d <;> simp only [KindTables.sortKind, alike.skipped]
  unfinished := by cases d <;> simp only [KindTables.sortKind, alike.unfinished]
  specials := by cases d <;> simp only [KindTables.sortKind, alike.specials]
  tokens := by cases d <;> simp only [KindTables.sortKind, alike.tokens]

theorem destination_congr (states : other.states = g.states) (r : TokenRule) : destination other r = destination g r := by
  unfold destination Grammar.stateIndex?
  rw [states]

/-- What a rule says about case does not matter to the sort of its kind. -/
theorem ActsAlike.takeDeclared (alike : ActsAlike k l) (states : other.states = g.states) (state : Nat)
    {r s : DeclaredRule} (same : s.caseless = r.caseless) :
    ActsAlike (k.takeDeclared g state r) (l.takeDeclared other state s) := by
  obtain ⟨disposition, ignoreCase, rule, regex⟩ := r
  obtain ⟨disposition', ignoreCase', rule', regex'⟩ := s
  obtain ⟨rfl, _, rfl, rfl⟩ := DeclaredRule.mk.inj same
  have declared : ActsAlike (k.declare state ignoreCase regex') (l.declare state ignoreCase' regex') :=
    alike.alter regex'.kind fun _ _ same => same
  unfold KindTables.takeDeclared
  dsimp only
  split
  · exact declared
  · refine ActsAlike.sortKind (declared.alter regex'.kind fun s t same => ?_) state disposition' regex'.kind
    dsimp only
    rw [destination_congr states, same]

theorem ActsAlike.takeAll (alike : ActsAlike k l) (states : other.states = g.states) (state : Nat)
    {rules others : List DeclaredRule} (same : others.map DeclaredRule.caseless = rules.map DeclaredRule.caseless) :
    ActsAlike (rules.foldl (KindTables.takeDeclared g state) k) (others.foldl (KindTables.takeDeclared other state) l) := by
  induction rules generalizing others k l with
  | nil =>
    obtain rfl := List.map_eq_nil_iff.mp same
    exact alike
  | cons r rest ih =>
    obtain ⟨s, more, rfl, first, later⟩ := List.map_eq_cons_iff.mp same
    exact ih (alike.takeDeclared states state first) later

theorem endOfInput_congr (same : g.SameButForCase other) (k : KindTables) : k.endOfInput other = k.endOfInput g := by
  have destinations : destination other = destination g := funext (destination_congr same.states)
  unfold endOfInput
  rw [same.rules, destinations]

end KindTables

namespace Assembly

open KindTables (ActsAlike)

theorem addState_actsAlike (same : g.SameButForCase other) {a b : Assembly} (alike : ActsAlike a.kinds b.kinds)
    (name : String) : ActsAlike (addState g options a name i).kinds (addState other settings b name i).kinds := by
  obtain ⟨_, kinds⟩ := addState_kinds g options a name i
  obtain ⟨_, kindsToo⟩ := addState_kinds other settings b name i
  have taken := alike.takeAll same.states i (same.declared i)
  rw [kinds, kindsToo]
  exact ⟨taken.nextStates, taken.skipped, taken.unfinished, taken.specials, taken.tokens⟩

theorem ofGrammar_actsAlike (same : g.SameButForCase other) :
    ActsAlike (ofGrammar g options).kinds (ofGrammar other settings).kinds := by
  have all : ∀ (states : List (String × Nat)) (a b : Assembly), ActsAlike a.kinds b.kinds →
      ActsAlike (states.foldl (fun a s => addState g options a s.1 s.2) a).kinds
        (states.foldl (fun b s => addState other settings b s.1 s.2) b).kinds := by
    intro states
    induction states with
    | nil => exact fun a b alike => alike
    | cons first rest ih => exact fun a b alike => ih _ _ (addState_actsAlike same alike first.1)
  unfold ofGrammar
  rw [same.states]
  refine all _ _ _ ?_
  have lastKind : other.lastKind = g.lastKind := by
    unfold Grammar.lastKind Grammar.regexes
    rw [same.rules]
  have start : KindTables.forGrammar other = KindTables.forGrammar g := by
    unfold KindTables.forGrammar
    rw [lastKind]
  rw [KindTables.endOfInput_congr same, start]
  exact .refl _

theorem disposition?_congr {a b : Assembly} (alike : ActsAlike a.kinds b.kinds) (k : Kind) :
    (tokenizer other settings b).disposition? k = (tokenizer g options a).disposition? k := by
  unfold Tokenizer.disposition? tokenizer
  dsimp only
  rw [alike.specials, alike.skipped, alike.unfinished, alike.tokens]

theorem nextState?_congr {a b : Assembly} (alike : ActsAlike a.kinds b.kinds) (k : Kind) :
    (tokenizer other settings b).nextState? k = (tokenizer g options a).nextState? k := by
  unfold Tokenizer.nextState? tokenizer
  dsimp only
  rw [List.getElem?_map, List.getElem?_map, Array.getElem?_toList, Array.getElem?_toList, alike.nextStates]

end Assembly

/-- If the lexical states match the same at every place of a text, the tokens of the text are the same. -/
theorem tokenize_congr {made remade : Generation} (generated : generate g options = .ok made)
    (regenerated : generate other settings = .ok remade) (same : g.SameButForCase other) {text : List Char}
    (basic : ∀ c ∈ text, c.toNat ≤ Text.lastCode)
    (matches_ : ∀ i < g.states.length, ∀ rest, rest <:+ text →
      Assembly.ownMatch other settings i rest = Assembly.ownMatch g options i rest) :
    remade.tokenizer.tokenize text = made.tokenizer.tokenize text := by
  obtain ⟨passes, tables⟩ := generate_ok generated
  have tablesToo := (generate_ok regenerated).2
  have alike : KindTables.ActsAlike (Assembly.ofGrammar g options).kinds (Assembly.ofGrammar other settings).kinds :=
    Assembly.ofGrammar_actsAlike same
  refine Tokenizer.tokensFrom_congr (fun k => ?_) (fun k => ?_) fun last reaches => ?_
  · rw [tables, tablesToo, Assembly.disposition?_congr alike]
  · rw [tables, tablesToo, Assembly.nextState?_congr alike]
  · have inside := lexState_lt generated reaches
    rw [tables, Assembly.length_tokenizer_states passes] at inside
    have suffix : last.rest <:+ text := reaches.rest
    have basicRest : ∀ c ∈ last.rest, c.toNat ≤ Text.lastCode := fun c member => basic c (suffix.mem member)
    rw [Assembly.longestMatch_eq_ownMatch generated inside basicRest,
      Assembly.longestMatch_eq_ownMatch regenerated (by rwa [same.states]) basicRest, matches_ _ inside _ suffix]

end TokenTables
