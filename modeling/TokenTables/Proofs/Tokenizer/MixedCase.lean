import TokenTables.Proofs.Tokenizer.OwnMatch

/-!
Lexical states that mix case. A state is marked as mixing case when productions with literals disagree on ignoring it, and
also when only its first production, which has no literals, disagrees with one that has some.
-/

namespace TokenTables

/-- The production has a literal for the index of its lexical states. -/
def Production.BearsLiteral (options : GenerationOptions) (p : Production) : Prop :=
  options.literalsInAutomaton = false ∧
    ∃ t ∈ p.regexes, t.isPrivate = false ∧ ∃ loc text, t.regex = .literal loc text ∧ text ≠ ""

namespace Grammar

/-- Two productions with literals disagree on ignoring case. -/
def LiteralsDisagree (g : Grammar) (options : GenerationOptions) (i : Nat) : Prop :=
  ∃ p ∈ g.productionsOf i, ∃ q ∈ g.productionsOf i,
    p.BearsLiteral options ∧ q.BearsLiteral options ∧ p.ignoreCase ≠ q.ignoreCase

/-- The first production has no literals, and it disagrees with one that has some. -/
def FirstDisagrees (g : Grammar) (options : GenerationOptions) (i : Nat) : Prop :=
  ∃ first rest, g.productionsOf i = first :: rest ∧ ¬ first.BearsLiteral options ∧
    ∃ p ∈ rest, p.BearsLiteral options ∧ p.ignoreCase ≠ first.ignoreCase

end Grammar

namespace Assembly

variable {g : Grammar} {options : GenerationOptions} {i : Nat}

theorem literalRule?_isSome_iff {r : DeclaredRule} : (literalRule? options r).isSome = true ↔
    options.literalsInAutomaton = false ∧ r.regex.isPrivate = false ∧
      ∃ loc text, r.regex.regex = .literal loc text ∧ text ≠ "" := by
  constructor
  · intro isLiteral
    obtain ⟨l, isLiteral⟩ := Option.isSome_iff_exists.mp isLiteral
    unfold literalRule? at isLiteral
    rw [Option.ite_none_left_eq_some] at isLiteral
    obtain ⟨isPublic, isLiteral⟩ := isLiteral
    obtain ⟨loc, text, written, inTables, rfl, some⟩ := literalOf?_some isLiteral
    exact ⟨inTables, by simpa using isPublic, loc, text, written, by simpa using some⟩
  · rintro ⟨inTables, isPublic, loc, text, written, some⟩
    simp [literalRule?, literalOf?, Regex.literalText?, isPublic, written, inTables, some]

/-- The literals of a lexical state are those that its productions bear. -/
theorem exists_literalRule_iff {P : Bool → Prop} :
    (∃ r ∈ g.rulesIn i, (literalRule? options r).isSome = true ∧ P r.ignoreCase) ↔
      ∃ p ∈ g.productionsOf i, p.BearsLiteral options ∧ P p.ignoreCase := by
  constructor
  · rintro ⟨r, member, isLiteral, holds⟩
    obtain ⟨inTables, isPublic, written⟩ := literalRule?_isSome_iff.mp isLiteral
    obtain ⟨p, inState, inProduction, isRegex, _, sameCase⟩ := Grammar.mem_rulesIn.mp member
    have declared : r.regex ∈ p.regexes := List.mem_filterMap.mpr ⟨r.rule, inProduction, isRegex⟩
    exact ⟨p, inState, ⟨inTables, r.regex, declared, isPublic, written⟩, sameCase ▸ holds⟩
  · rintro ⟨p, inState, ⟨inTables, t, declared, isPublic, written⟩, holds⟩
    obtain ⟨rule, inProduction, isRegex⟩ := List.mem_filterMap.mp declared
    exact ⟨⟨p.disposition, p.ignoreCase, rule, t⟩,
      Grammar.mem_rulesIn.mpr ⟨p, inState, inProduction, isRegex, rfl, rfl⟩,
      literalRule?_isSome_iff.mpr ⟨inTables, isPublic, written⟩, holds⟩

/-- The draft compares each production with literals to the first one. -/
theorem draft_mixesCase_iff : (draft g options i).mixesCase = true ↔
    ∃ p ∈ g.productionsOf i, p.BearsLiteral options ∧ g.firstIgnoresCase i ≠ p.ignoreCase := by
  rw [(draft_drafted g options i).mixesCase, List.any_eq_true]
  simp only [Bool.and_eq_true, bne_iff_ne]
  exact exists_literalRule_iff

end Assembly

/-- A lexical state is marked as mixing case just when two productions with literals disagree on ignoring case, or its first
production has no literals and disagrees with one that has some. -/
theorem mixesCase_iff {g : Grammar} {options : GenerationOptions} {made : Generation}
    (generated : generate g options = .ok made) {i : Nat} {s : LexicalState}
    (present : made.tokenizer.states[i]? = some s) :
    s.mixesCase = true ↔ g.LiteralsDisagree options i ∨ g.FirstDisagrees options i := by
  obtain ⟨_, offset, update, _, _, isState⟩ := Assembly.placed_of_present generated present
  rw [isState.mixesCase, Assembly.draft_mixesCase_iff]
  constructor
  · rintro ⟨p, inState, bears, differs⟩
    cases productions : g.productionsOf i with
    | nil =>
      rw [productions] at inState
      cases inState
    | cons first rest =>
      rw [Grammar.firstIgnoresCase, productions] at differs
      rw [productions] at inState
      by_cases firstBears : first.BearsLiteral options
      · refine .inl ⟨first, ?_, p, ?_, firstBears, bears, differs⟩ <;> rw [productions]
        · exact List.mem_cons_self
        · exact inState
      · have later : p ∈ rest := (List.mem_cons.mp inState).resolve_left fun same => firstBears (same ▸ bears)
        exact .inr ⟨first, rest, productions, firstBears, p, later, bears, differs.symm⟩
  · rintro (⟨p, pInState, q, qInState, pBears, qBears, differ⟩ | ⟨first, rest, productions, _, p, later, bears, differs⟩)
    · -- One of the two is not like the first.
      by_cases like : g.firstIgnoresCase i = p.ignoreCase
      · exact ⟨q, qInState, qBears, like ▸ differ⟩
      · exact ⟨p, pInState, pBears, like⟩
    · refine ⟨p, ?_, bears, ?_⟩
      · rw [productions]
        exact List.mem_cons_of_mem first later
      · rw [Grammar.firstIgnoresCase, productions]
        exact differs.symm

/-- Digits, for which case does not matter. -/
def digits : Production :=
  ⟨.token, some ["DEFAULT"], true,
    [⟨.regex ⟨1, none, false, .charClass .unknown ⟨false, [.range '0' '9']⟩⟩, none, none, .unknown⟩], .unknown⟩

/-- A keyword, for which case matters. -/
def keyword : Production :=
  ⟨.token, some ["DEFAULT"], false, [⟨.regex ⟨2, none, false, .literal .unknown "if"⟩, none, none, .unknown⟩], .unknown⟩

def digitsAndKeyword : Grammar := ⟨["DEFAULT"], [digits, keyword]⟩

/-- Only one of the productions has a literal, and yet the state counts as one that mixes case. -/
theorem digitsAndKeyword_mixesCase : ∃ made s, generate digitsAndKeyword {} = .ok made ∧
    made.tokenizer.states[0]? = some s ∧ s.mixesCase = true ∧ ¬ digitsAndKeyword.LiteralsDisagree {} 0 := by
  obtain ⟨made, generated⟩ : ∃ made, generate digitsAndKeyword {} = .ok made :=
    generate_of_passes (by decide) (by unfold Grammar.Passes; cbv)
  obtain ⟨_, _, s, _, present, _⟩ := Assembly.tokenizer_placed (generate_ok generated).1
    (by decide : 0 < digitsAndKeyword.states.length)
  rw [← (generate_ok generated).2] at present
  have productions : digitsAndKeyword.productionsOf 0 = [digits, keyword] := rfl
  have noLiteral : ¬ digits.BearsLiteral {} := by
    rintro ⟨_, t, member, _, loc, text, written, _⟩
    obtain rfl := List.mem_singleton.mp member
    cases written
  have literal : keyword.BearsLiteral {} :=
    ⟨rfl, _, List.mem_singleton_self _, rfl, .unknown, "if", rfl, by decide⟩
  refine ⟨made, s, generated, present, (mixesCase_iff generated present).mpr (.inr ?_), ?_⟩
  · exact ⟨digits, [keyword], productions, noLiteral, keyword, List.mem_singleton_self _, literal, by decide⟩
  · rintro ⟨p, pInState, q, qInState, pBears, qBears, differ⟩
    have only : ∀ p ∈ digitsAndKeyword.productionsOf 0, p.BearsLiteral {} → p = keyword := by
      rw [productions]
      simp [noLiteral]
    exact differ (by rw [only p pInState pBears, only q qInState qBears])

end TokenTables
