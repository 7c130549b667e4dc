import TokenTables.Proofs.Literal.Entries

/-!
Literals that are the same but for what they say about case. Following the automaton along them, what shadows them and
where to go on after them comes to the same.
-/

namespace TokenTables

open Automaton (EntryName Graph StateId)

/-- The literal, with case ignored. -/
def Literal.ignoringCase (l : Literal) : Literal := { l with ignoreCase := true }

namespace LiteralIndex

variable {t u : LiteralIndex} {g : Graph} {wildcard : Option Kind} {lexState : Nat}

/-- The second index has the literals of the first with case ignored. -/
structure Recased (t u : LiteralIndex) : Prop where
  literals : u.literals = t.literals.map Literal.ignoringCase
  maxLength : u.maxLength = t.maxLength
  progress : u.progress = t.progress
  resumptions : u.resumptions = t.resumptions

theorem Recased.insert (recased : Recased t u) (l : Literal) : Recased (t.insert l) (u.insert l.ignoringCase) := by
  have one := insert_inserted t l
  have other := insert_inserted u l.ignoringCase
  refine ⟨?_, ?_, ?_, ?_⟩
  · by_cases none : l.chars = []
    · rw [one.same none, other.same none, recased.literals]
    · rw [one.literals none, other.literals none, recased.literals, List.map_append]
      rfl
  · rw [one.maxLength, other.maxLength, recased.maxLength]
    rfl
  · rw [one.progress, other.progress, recased.progress]
  · rw [one.resumptions, other.resumptions, recased.resumptions]

theorem Recased.byKind (recased : Recased t u) : u.byKind = t.byKind.map Literal.ignoringCase := by
  unfold LiteralIndex.byKind
  rw [recased.literals]
  exact (List.map_mergeSort (f := Literal.ignoringCase) fun _ _ _ _ => rfl).symm

theorem Recased.kindOf (recased : Recased t u) (text : List Char) : u.kindOf text = t.kindOf text := by
  unfold LiteralIndex.kindOf
  rw [recased.literals, List.filter_map, List.map_map]
  rfl

theorem Recased.addResumptions (recased : Recased t u) (l : Literal) :
    Recased (addResumptions g wildcard t l) (addResumptions g wildcard u l.ignoringCase) := by
  have along : u.follow g wildcard [] {} g.openingStates l.chars = t.follow g wildcard [] {} g.openingStates l.chars :=
    follow_congr recased.kindOf _ _ _ _
  refine ⟨recased.literals, recased.maxLength, ?_, ?_⟩
  · unfold LiteralIndex.addResumptions Literal.ignoringCase
    dsimp only
    rw [along, recased.progress]
  · unfold LiteralIndex.addResumptions Literal.ignoringCase addResumption
    dsimp only
    rw [along, recased.resumptions]

theorem Recased.findResumptions (recased : Recased t u) :
    Recased (t.findResumptions g wildcard) (u.findResumptions g wildcard) := by
  have cleared : Recased { t with progress := {}, resumptions := Array.replicate t.maxLength {} }
      { u with progress := {}, resumptions := Array.replicate u.maxLength {} } :=
    ⟨recased.literals, recased.maxLength, rfl, by dsimp only; rw [recased.maxLength]⟩
  have all : ∀ (literals : List Literal) (made remade : LiteralIndex), Recased made remade →
      Recased (literals.foldl (LiteralIndex.addResumptions g wildcard) made)
        ((literals.map Literal.ignoringCase).foldl (LiteralIndex.addResumptions g wildcard) remade) := by
    intro literals
    induction literals with
    | nil => exact fun made remade same => same
    | cons l rest ih => exact fun made remade same => ih _ _ (same.addResumptions l)
  unfold LiteralIndex.findResumptions
  dsimp only
  split
  · exact cleared
  · rw [recased.byKind]
    exact all _ _ _ cleared

theorem Recased.shadowingKind (recased : Recased t u) (l : Literal) :
    u.shadowingKind l.ignoringCase = t.shadowingKind l := by
  unfold LiteralIndex.shadowingKind
  rw [recased.progress]
  rfl

theorem Recased.entryOf_kind (recased : Recased t u) (l : Literal) :
    (u.entryOf l.ignoringCase).kind = (t.entryOf l).kind := by
  unfold LiteralIndex.entryOf
  dsimp only
  rw [recased.shadowingKind]
  rfl

theorem startState_of_unnamed (none : g.nameCount = 0) (pos : Nat) (k : Kind) : t.startState pos k g = (g, .none) := by
  unfold startState
  rw [none, beq_self_eq_true, Bool.or_true, if_pos rfl]

theorem Recased.startState (recased : Recased t u) (mixes : u.mixesCase = t.mixesCase ∨ g.nameCount = 0) (pos : Nat)
    (k : Kind) : u.startState pos k g = t.startState pos k g := by
  rcases mixes with same | none
  · have states : u.resumptionStates pos k = t.resumptionStates pos k := by
      unfold resumptionStates resumptionsAt
      rw [recased.resumptions]
    unfold LiteralIndex.startState
    rw [states, same]
  · rw [startState_of_unnamed none, startState_of_unnamed none]

theorem startStates_congr {tables others : CandidateTables} (same : others.startStates = tables.startStates)
    (k : Kind) (name : Option EntryName) :
    (others.setStart lexState k name).startStates = (tables.setStart lexState k name).startStates := by
  cases name <;> simp only [CandidateTables.setStart, same]

/-- After the literals of both have been entered the names to go on from are the same. -/
theorem Recased.register (recased : Recased t u) (mixes : u.mixesCase = t.mixesCase ∨ g.nameCount = 0) (offset : Nat)
    (tables : CandidateTables) :
    (u.register lexState offset g tables).graph = (t.register lexState offset g tables).graph ∧
      (u.register lexState offset g tables).tables.startStates = (t.register lexState offset g tables).tables.startStates := by
  have all : ∀ (literals : List Literal) (own other : TableUpdate), (u.mixesCase = t.mixesCase ∨ own.graph.nameCount = 0) →
      other.graph = own.graph → other.tables.startStates = own.tables.startStates →
      ((literals.map Literal.ignoringCase).foldl (u.enterLiteral lexState offset) other).graph =
          (literals.foldl (t.enterLiteral lexState offset) own).graph ∧
        ((literals.map Literal.ignoringCase).foldl (u.enterLiteral lexState offset) other).tables.startStates =
          (literals.foldl (t.enterLiteral lexState offset) own).tables.startStates := by
    intro literals
    induction literals with
    | nil => exact fun own other _ graph starts => ⟨graph, starts⟩
    | cons l rest ih =>
      intro own other mixes graph starts
      have start : u.startState (l.ignoringCase.length - 1) l.ignoringCase.kind other.graph =
          t.startState (l.length - 1) l.kind own.graph := by
        rw [graph]
        exact recased.startState mixes _ _
      refine ih _ _ ?_ ?_ ?_
      · refine mixes.imp_right fun none => ?_
        rw [enterLiteral_eq, startState_of_unnamed none]
        exact none
      · rw [enterLiteral_eq, enterLiteral_eq, start]
      · rw [enterLiteral_eq, enterLiteral_eq, start, recased.entryOf_kind]
        refine startStates_congr ?_ _ _
        rw [startStates_enterKeys, startStates_enterKeys, starts]
  unfold LiteralIndex.register
  rw [recased.byKind]
  exact all _ _ _ mixes rfl rfl

end LiteralIndex

end TokenTables
