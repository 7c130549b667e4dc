import Mathlib.Data.Set.Basic
import TokenTables.Proofs.Automaton.Absorb
import TokenTables.Proofs.Automaton.Rules

/-!
What the states of a graph that is being closed stand for, in terms of the graph as it was built. An original
state stands for itself, a merged one for the states it replaces, and the state after it for those after them.
-/

namespace TokenTables.Automaton.Graph

open Relation (ReflTransGen)
open Kind (NoLater)

/-- Epsilon moves of any number. -/
abbrev Silent (g : Graph) : Nat → Nat → Prop := ReflTransGen fun s t => t ∈ (g.state s).epsilon

/-- Reading a code from `s` on may lead to `t`. -/
def Gets (g : Graph) (s code t : Nat) : Prop :=
  ∃ a, Silent g s a ∧ (g.state a).moves.acceptsCode code = true ∧ (g.state a).next = some t

/-- Epsilon moves from `s` on may end in a match of `k`. -/
def Ends (g : Graph) (s : Nat) (k : Kind) : Prop := ∃ f, Silent g s f ∧ (g.state f).kind = some k

/-- Of the states that a state stands for. -/
abbrev Standing := Nat → Set Nat

variable {base g h : Graph} {sem : Standing}

def GetsAny (base : Graph) (sem : Standing) (s code t : Nat) : Prop := ∃ u ∈ sem s, Gets base u code t

def EndsAny (base : Graph) (sem : Standing) (s : Nat) (k : Kind) : Prop := ∃ u ∈ sem s, Ends base u k

/-- What `q` stands for lies behind what `s` stands for. -/
def Behind (base : Graph) (sem : Standing) (s q : Nat) : Prop := ∀ t ∈ sem q, ∃ u ∈ sem s, Silent base u t

theorem Behind.refl (s : Nat) : Behind base sem s s := fun t member => ⟨t, member, .refl⟩

theorem Behind.trans {s q r : Nat} (one : Behind base sem s q) (two : Behind base sem q r) : Behind base sem s r := by
  intro t member
  obtain ⟨u, inQ, path⟩ := two t member
  obtain ⟨v, inS, first⟩ := one u inQ
  exact ⟨v, inS, first.trans path⟩

theorem Behind.gets {s q code t : Nat} (behind : Behind base sem s q) (gets : GetsAny base sem q code t) :
    GetsAny base sem s code t := by
  obtain ⟨u, inQ, a, path, accepts, next⟩ := gets
  obtain ⟨v, inS, first⟩ := behind u inQ
  exact ⟨v, inS, a, first.trans path, accepts, next⟩

theorem Behind.ends {s q : Nat} {k : Kind} (behind : Behind base sem s q) (ends : EndsAny base sem q k) :
    EndsAny base sem s k := by
  obtain ⟨u, inQ, f, path, kind⟩ := ends
  obtain ⟨v, inS, first⟩ := behind u inQ
  exact ⟨v, inS, f, first.trans path, kind⟩

/-- Moves of `s` on a code enter a state that stands for `t`. -/
def MovesTo (g : Graph) (sem : Standing) (s code t : Nat) : Prop :=
  (g.state s).moves.acceptsCode code = true ∧ ∃ n, (g.state s).next = some n ∧ t ∈ sem n

/-- The epsilon moves and kinds mean no more than they should. -/
structure Sound (base : Graph) (sem : Standing) (g : Graph) : Prop where
  target : ∀ s q : Nat, q ∈ (g.state s).epsilon → q < g.size
  behind : ∀ s q : Nat, q ∈ (g.state s).epsilon → Behind base sem s q
  kind : ∀ (s : Nat) (k : Kind), (g.state s).kind = some k → EndsAny base sem s k
  alone : ∀ s n : Nat, (g.state s).next = some n →
    (g.state s).kind = none ∧ ((g.state s).epsilon = [] ∨ (g.state s).epsilon = [s])

/-- A code that is read from `s` on is read by a mover that the epsilon moves lead to, or behind a closed
state. -/
inductive Chain (base : Graph) (sem : Standing) (g : Graph) (code t : Nat) : Nat → Prop where
  | mover {s : Nat} (moves : MovesTo g sem s code t) : Chain base sem g code t s
  | closed {s : Nat} (closed : (g.state s).isClosed = true) (gets : GetsAny base sem s code t) :
    Chain base sem g code t s
  | step {s q : Nat} (edge : q ∈ (g.state s).epsilon) (after : Chain base sem g code t q) :
    Chain base sem g code t s

/-- The list of a state leads to everything that can be read from it on. -/
def Complete (base : Graph) (sem : Standing) (g : Graph) (s : Nat) : Prop :=
  ∀ code t, GetsAny base sem s code t → ∃ m ∈ (g.state s).epsilon, MovesTo g sem m code t

/-- Nothing has been named yet. -/
structure Unnamed (s : State) : Prop where
  reported : s.reported = none
  name : s.name = none
  isAlias : s.isAlias = false
  namesBehind : s.namesBehind = none
  dispatch : s.dispatch = none

/-- The graph in the course of closing means what the built graph means. -/
structure Represents (base : Graph) (sem : Standing) (g : Graph) : Prop extends Sound base sem g where
  size_le : base.size ≤ g.size
  initial : g.initial = base.initial
  noNames : g.named = #[] ∧ g.groups = #[]
  unnamed : ∀ s : Nat, Unnamed (g.state s)
  self : ∀ s, s < base.size → sem s = {s}
  kept : ∀ s : Nat, s < base.size → (g.state s).moves = (base.state s).moves ∧
    (g.state s).next = (base.state s).next ∧ (g.state s).isFinal = (base.state s).isFinal
  untouched : ∀ s : Nat, s < base.size → (g.state s).isClosed = false → g.state s = base.state s
  idle : ∀ s : Nat, (g.state s).next = none → (g.state s).moves = {}
  valid : ∀ s : Nat, (g.state s).moves.Valid
  next : ∀ s n : Nat, (g.state s).next = some n → n < g.size ∧ (sem n).Nonempty ∧ (g.state s).isFinal = false
  again : ∀ s n m : Nat, (g.state s).next = some n → (g.state n).next = some m → n < base.size
  mover : ∀ s n : Nat, (g.state s).next = some n → ∀ code t, MovesTo g sem s code t ↔ GetsAny base sem s code t
  complete : ∀ s : Nat, (g.state s).isClosed = true → Complete base sem g s
  chain : ∀ s code t : Nat, s < g.size → GetsAny base sem s code t → Chain base sem g code t s
  cache : ∀ members id, (members, id) ∈ g.merged →
    (g.state id).next.isSome ∧ (∀ m ∈ members, m < g.size) ∧ ∀ t, t ∈ sem id ↔ ∃ m ∈ members, t ∈ sem m

theorem Represents.getsAny_self (rep : Represents base sem g) {s code t : Nat} (inside : s < base.size) :
    GetsAny base sem s code t ↔ Gets base s code t := by
  simp [GetsAny, rep.self s inside]

theorem Represents.endsAny_self (rep : Represents base sem g) {s : Nat} {k : Kind} (inside : s < base.size) :
    EndsAny base sem s k ↔ Ends base s k := by
  simp [EndsAny, rep.self s inside]

/-- Movers alone accept codes. -/
theorem hasMoves_of_acceptsCode {s : State} {code : Nat} (valid : s.moves.Valid)
    (accepts : s.moves.acceptsCode code = true) : s.hasMoves = true := by
  unfold State.hasMoves
  rw [Bool.not_eq_true', Bool.eq_false_iff]
  intro empty
  rw [(Moves.isEmpty_iff valid).mp empty code] at accepts
  cases accepts

theorem MovesTo.hasMoves {s code t : Nat} (valid : (g.state s).moves.Valid) (moves : MovesTo g sem s code t) :
    (g.state s).hasMoves = true := hasMoves_of_acceptsCode valid moves.1

theorem isEmpty_empty : ({} : Moves).isEmpty = true := by decide

theorem next_of_hasMoves {s : State} (idle : s.next = none → s.moves = {}) (moves : s.hasMoves = true) :
    ∃ n, s.next = some n := by
  cases goes : s.next with
  | some n => exact ⟨n, rfl⟩
  | none =>
    unfold State.hasMoves at moves
    rw [idle goes, isEmpty_empty] at moves
    cases moves

/-- A graph as it was built stands for itself. -/
theorem Fresh.represents (fresh : Fresh base) : Represents base (fun s => {s}) base where
  target s q member := fresh.target s q member
  behind s q member t same := ⟨s, rfl, by
    obtain rfl : t = q := same
    exact .single member⟩
  kind s k kind := ⟨s, rfl, s, .refl, kind⟩
  alone s n goes := by
    obtain ⟨_, _, bare, noKind, _⟩ := fresh.next s n goes
    exact ⟨noKind, .inl bare⟩
  size_le := Nat.le_refl _
  initial := rfl
  noNames := fresh.frame.2
  unnamed s := by
    rw [fresh.marks s]
    exact ⟨rfl, rfl, rfl, rfl, rfl⟩
  self s _ := rfl
  kept s _ := ⟨rfl, rfl, rfl⟩
  untouched s _ _ := rfl
  idle := fresh.idle
  valid := fresh.valid
  next s n goes := by
    obtain ⟨_, inside, _, _, notFinal⟩ := fresh.next s n goes
    exact ⟨inside, ⟨n, rfl⟩, notFinal⟩
  again s n m goes _ := (fresh.next s n goes).2.1
  mover s n goes code t := by
    obtain ⟨_, _, bare, _, _⟩ := fresh.next s n goes
    constructor
    · rintro ⟨accepts, m, next, member⟩
      obtain rfl : t = m := member
      exact ⟨s, rfl, s, .refl, accepts, next⟩
    · rintro ⟨u, member, a, path, accepts, next⟩
      obtain rfl : u = s := member
      rcases Relation.ReflTransGen.cases_head path with rfl | ⟨q, edge, _⟩
      · exact ⟨accepts, t, next, rfl⟩
      · rw [bare] at edge
        cases edge
  complete s closed := by
    rw [fresh.marks s] at closed
    cases closed
  chain s code t inside gets := by
    clear inside
    obtain ⟨u, member, a, path, accepts, next⟩ := gets
    obtain rfl : u = s := member
    induction path using Relation.ReflTransGen.head_induction_on with
    | refl => exact .mover ⟨accepts, t, next, rfl⟩
    | head edge _ ih => exact .step edge ih
  cache members id member := by
    rw [fresh.frame.1] at member
    cases member

end TokenTables.Automaton.Graph
