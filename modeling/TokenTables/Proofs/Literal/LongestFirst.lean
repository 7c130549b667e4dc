import TokenTables.Proofs.Literal.Continuation
import TokenTables.Proofs.Literal.FirstCharacters

/-!
The lists of literals by first character. Whatever lexical states are registered, each list has exactly one entry for each
literal that is kept under its character, the longest literals first and of equally long ones the latest kind first, and
no lexical state touches the lists of another.
-/

namespace TokenTables

open Automaton (Graph)

/-- The order of literals in a list: longer ones first, then later kinds. -/
def Literal.Precedes (a b : Literal) : Prop := b.length < a.length ∨ a.length = b.length ∧ b.kind < a.kind

theorem Text.nodup_caseForms (c : Char) : (caseForms c).Nodup := by
  simp only [caseForms, List.eraseDups_cons]
  grind

namespace LiteralIndex

variable {t : LiteralIndex} {l : Literal} {k : Kind} {c : Char} {e : Candidate} {entries : List Candidate}
  {ls seen : List Literal} {lexState offset : Nat}

/-! ### Entries -/

/-- The automaton takes the whole of a literal as an earlier kind. -/
def TakenAs (t : LiteralIndex) (l : Literal) (k : Kind) : Prop :=
  ∃ steps step, t.progress[l.kind]? = some steps ∧ steps[l.length - 1]? = some step ∧ step.kind = some k ∧
    step.matchedAt = l.length - 1 ∧ k < l.kind

/-- The entry of a literal. -/
structure EntryFor (t : LiteralIndex) (l : Literal) (e : Candidate) : Prop where
  chars : e.chars = l.chars.map t.options.kept
  ignoreCase : e.ignoreCase = t.ignores l
  kind : t.TakenAs l e.kind ∨ e.kind = l.kind ∧ ∀ k, ¬ t.TakenAs l k

theorem EntryFor.length (entry : t.EntryFor l e) : e.chars.length = l.length := by
  rw [entry.chars, List.length_map, Literal.length]

theorem shadowingKind_eq_some_iff : t.shadowingKind l = some k ↔ t.TakenAs l k := by
  constructor
  · intro shadow
    obtain ⟨steps, known, step, place, found, both⟩ := shadowingKind_some shadow
    exact ⟨steps, step, known, place, found, both⟩
  · rintro ⟨steps, step, known, place, found, both⟩
    unfold shadowingKind
    rw [known, Option.bind_eq_bind, Option.bind_some, place, Option.bind_eq_bind, Option.bind_some, found,
      Option.bind_eq_bind, Option.bind_some, if_pos both]

theorem entryFor_entryOf (t : LiteralIndex) (l : Literal) : t.EntryFor l (t.entryOf l) := by
  refine ⟨entryOf_chars, entryOf_ignoreCase, ?_⟩
  unfold entryOf
  cases shadow : t.shadowingKind l with
  | some k => exact .inl (shadowingKind_eq_some_iff.mp shadow)
  | none =>
    refine .inr ⟨rfl, fun k taken => ?_⟩
    rw [shadowingKind_eq_some_iff.mpr taken] at shadow
    cases shadow

/-- A literal is kept under its first character, or under all forms of it if case does not matter. -/
def KeptUnder (t : LiteralIndex) (l : Literal) (c : Char) : Prop :=
  ∃ first more, l.chars = first :: more ∧
    if t.ignores l then c ∈ Text.caseForms (t.options.kept first) else c = t.options.kept first

theorem keptUnder_iff : t.KeptUnder l c ↔ c ∈ entryKeys (t.entryOf l) := by
  cases spelled : l.chars with
  | nil => simp [KeptUnder, entryKeys, entryOf_chars, spelled]
  | cons first more =>
    rw [mem_entryKeys_iff spelled]
    constructor
    · rintro ⟨_, _, again, key⟩
      obtain ⟨rfl, rfl⟩ := List.cons.inj (spelled.symm.trans again)
      exact key
    · exact fun key => ⟨first, more, spelled, key⟩

theorem nodup_entryKeys (e : Candidate) : (entryKeys e).Nodup := by
  unfold entryKeys
  split
  · exact List.nodup_nil
  · split
    · exact Text.nodup_caseForms _
    · exact List.nodup_singleton _

/-! ### Lists -/

/-- The list has an entry for each of the literals kept under `c`, and they are in order. The order is strict, so no
literal has two. -/
def Lists (t : LiteralIndex) (c : Char) (literals : List Literal) (entries : List Candidate) : Prop :=
  ∃ ls : List Literal, (∀ l, l ∈ ls ↔ l ∈ literals ∧ t.KeptUnder l c) ∧ ls.Pairwise Literal.Precedes ∧
    List.Forall₂ t.EntryFor ls entries

/-- The entry of a literal of the latest kind finds its place. -/
theorem place_in_order (entry : t.EntryFor l e) (listed : List.Forall₂ t.EntryFor ls entries)
    (ordered : ls.Pairwise Literal.Precedes) (latest : ∀ other ∈ ls, other.kind < l.kind) :
    ∃ after : List Literal, (∀ other, other ∈ after ↔ other = l ∨ other ∈ ls) ∧ after.Pairwise Literal.Precedes ∧
      List.Forall₂ t.EntryFor after (e.place entries) := by
  induction listed with
  | nil => exact ⟨[l], by simp, List.pairwise_singleton _ _, .cons entry .nil⟩
  | @cons first own rest others isFirst more ih =>
    obtain ⟨before, ordered⟩ := List.pairwise_cons.mp ordered
    obtain ⟨latestFirst, latestRest⟩ := List.forall_mem_cons.mp latest
    rw [Candidate.place, isFirst.length, entry.length]
    split
    · rename_i noLonger
      refine ⟨l :: first :: rest, by simp, List.pairwise_cons.mpr ⟨fun other member => ?_,
        List.pairwise_cons.mpr ⟨before, ordered⟩⟩, .cons entry (.cons isFirst more)⟩
      have short : other.length ≤ first.length := by
        rcases List.mem_cons.mp member with rfl | later
        · exact Nat.le_refl _
        · rcases before other later with shorter | ⟨same, _⟩
          · exact Nat.le_of_lt shorter
          · exact Nat.le_of_eq same.symm
      rcases Nat.lt_or_eq_of_le (short.trans noLonger) with shorter | same
      · exact .inl shorter
      · exact .inr ⟨same.symm, latest other member⟩
    · rename_i longer
      obtain ⟨after, members, sorted, paired⟩ := ih ordered latestRest
      refine ⟨first :: after, fun other => ?_, List.pairwise_cons.mpr ⟨fun other member => ?_, sorted⟩,
        .cons isFirst paired⟩
      · simp only [List.mem_cons, members]
        exact or_left_comm
      · rcases (members other).mp member with rfl | later
        · exact .inl (Nat.lt_of_not_le longer)
        · exact before other later

/-- Each of the keys of an entry gets it once. -/
theorem beginningWith_enterKeys (tables : CandidateTables) (e : Candidate) (c : Char) :
    (enterKeys lexState tables e).beginningWith lexState c =
      if c ∈ entryKeys e then e.place (tables.beginningWith lexState c) else tables.beginningWith lexState c := by
  have all : ∀ (keys : List Char) (tables : CandidateTables), keys.Nodup →
      (keys.foldl (fun tables key => tables.addEntry lexState e key) tables).beginningWith lexState c =
        if c ∈ keys then e.place (tables.beginningWith lexState c) else tables.beginningWith lexState c := by
    intro keys
    induction keys with
    | nil => simp
    | cons key rest ih =>
      intro tables distinct
      obtain ⟨fresh, distinct⟩ := List.nodup_cons.mp distinct
      rw [List.foldl_cons, ih _ distinct, CandidateTables.beginningWith_addEntry]
      by_cases here : key = c
      · subst here
        simp [fresh]
      · simp [here, Ne.symm here]
  exact all (entryKeys e) tables (nodup_entryKeys e)

/-- Entering a literal of the latest kind keeps the lists in order. -/
theorem Lists.enter {u : TableUpdate} (lists : t.Lists c seen (u.tables.beginningWith lexState c))
    (latest : ∀ other ∈ seen, other.kind < l.kind) :
    t.Lists c (seen ++ [l]) ((t.enterLiteral lexState offset u l).tables.beginningWith lexState c) := by
  obtain ⟨ls, members, ordered, listed⟩ := lists
  rw [enterLiteral_eq, CandidateTables.beginningWith_setStart, beginningWith_enterKeys]
  split
  · rename_i key
    obtain ⟨after, placed, sorted, paired⟩ := place_in_order (entryFor_entryOf t l) listed ordered
      fun other member => latest other ((members other).mp member).1
    refine ⟨after, fun other => ?_, sorted, paired⟩
    rw [placed, members, List.mem_append, List.mem_singleton]
    constructor
    · rintro (rfl | ⟨inside, kept⟩)
      · exact ⟨.inr rfl, keptUnder_iff.mpr key⟩
      · exact ⟨.inl inside, kept⟩
    · rintro ⟨inside | rfl, kept⟩
      · exact .inr ⟨inside, kept⟩
      · exact .inl rfl
  · rename_i noKey
    refine ⟨ls, fun other => ?_, ordered, listed⟩
    rw [members, List.mem_append, List.mem_singleton]
    constructor
    · rintro ⟨inside, kept⟩
      exact ⟨.inl inside, kept⟩
    · rintro ⟨inside | rfl, kept⟩
      · exact ⟨inside, kept⟩
      · exact absurd (keptUnder_iff.mp kept) noKey

theorem Lists.foldl {rest : List Literal} {u : TableUpdate}
    (lists : t.Lists c seen (u.tables.beginningWith lexState c))
    (ascending : (seen ++ rest).Pairwise fun a b => a.kind < b.kind) :
    t.Lists c (seen ++ rest) ((rest.foldl (t.enterLiteral lexState offset) u).tables.beginningWith lexState c) := by
  induction rest generalizing seen u with
  | nil => rwa [List.append_nil]
  | cons l rest ih =>
    rw [List.append_cons] at ascending ⊢
    refine ih (lists.enter fun other member => ?_) ascending
    have earlier := (List.pairwise_append.mp ascending).1
    exact (List.pairwise_append.mp earlier).2.2 other member l (List.mem_singleton_self l)

theorem byKind_ascending (distinct : (t.literals.map (·.kind)).Nodup) :
    t.byKind.Pairwise fun a b => a.kind < b.kind := by
  have perm : t.byKind.Perm t.literals := List.mergeSort_perm _ _
  have differ : t.byKind.Pairwise fun a b => a.kind ≠ b.kind :=
    List.pairwise_map.mp ((perm.map Literal.kind).nodup_iff.mpr distinct)
  exact (t.byKind_sorted.and differ).imp fun both => Nat.lt_of_le_of_ne both.1 both.2

/-- Registering literals of distinct kinds fills the lists that the lexical state has not begun. -/
theorem register_lists (distinct : (t.literals.map (·.kind)).Nodup) (g : Graph) {tables : CandidateTables}
    (unbegun : tables.beginningWith lexState c = []) :
    t.Lists c t.literals ((t.register lexState offset g tables).tables.beginningWith lexState c) := by
  have begun : t.Lists c [] (tables.beginningWith lexState c) := by
    rw [unbegun]
    exact ⟨[], by simp, .nil, .nil⟩
  have ascending : ([] ++ t.byKind).Pairwise fun a b : Literal => a.kind < b.kind := byKind_ascending distinct
  have filled : t.Lists c ([] ++ t.byKind)
      ((t.register lexState offset g tables).tables.beginningWith lexState c) :=
    Lists.foldl (u := { tables, graph := g }) begun ascending
  obtain ⟨ls, members, ordered, listed⟩ := filled
  exact ⟨ls, fun l => by rw [members, List.nil_append, mem_byKind], ordered, listed⟩

end LiteralIndex

/-! ### A sequence of lexical states -/

/-- The literals of a lexical state on their way into the tables. -/
structure Registration where
  lexState : Nat
  offset : Nat
  index : LiteralIndex
  graph : Graph

namespace Registration

variable {r : Registration} {rs : List Registration} {tables : CandidateTables}

def enter (r : Registration) (tables : CandidateTables) : CandidateTables :=
  (r.index.register r.lexState r.offset r.graph tables).tables

/-- The tables after some lexical states have been registered, one after the other. -/
def enterAll (rs : List Registration) (tables : CandidateTables) : CandidateTables :=
  rs.foldl (fun tables r => r.enter tables) tables

theorem enter_other {s : Nat} (apart : s ≠ r.lexState) (tables : CandidateTables) (c : Char) :
    (r.enter tables).beginningWith s c = tables.beginningWith s c :=
  (LiteralIndex.register_elsewhere r.index r.lexState r.offset r.graph tables).candidates s apart.symm c

theorem enterAll_other {s : Nat} (apart : s ∉ rs.map (·.lexState)) (tables : CandidateTables) (c : Char) :
    (enterAll rs tables).beginningWith s c = tables.beginningWith s c :=
  List.foldlRecOn (motive := fun made : CandidateTables => made.beginningWith s c = tables.beginningWith s c) _ _ rfl
    fun made same r member => (enter_other (fun here => apart (List.mem_map.mpr ⟨r, member, here.symm⟩)) made c).trans same

/-- After any sequence of distinct lexical states, each with literals of distinct kinds, the list of a lexical state and a
character has one entry for each literal of the state that is kept under the character, longest first and of equally long
ones the latest kind first. A state that has not been registered has no entries, and none changes those of another. -/
theorem lists_longest_first (apart : (rs.map (·.lexState)).Nodup)
    (distinct : ∀ r ∈ rs, (r.index.literals.map (·.kind)).Nodup) :
    (∀ r ∈ rs, ∀ c, r.index.Lists c r.index.literals ((enterAll rs {}).beginningWith r.lexState c)) ∧
    (∀ s ∉ rs.map (·.lexState), ∀ c, (enterAll rs {}).beginningWith s c = []) ∧
    ∀ (r : Registration) (tables : CandidateTables), ∀ s ≠ r.lexState, ∀ c,
      (r.enter tables).beginningWith s c = tables.beginningWith s c := by
  have empty : ∀ s c, ({} : CandidateTables).beginningWith s c = [] := fun s => (LiteralIndex.absent_empty s).candidates
  refine ⟨fun r member c => ?_, fun s absent c => ?_, fun r tables s other => enter_other other tables⟩
  · obtain ⟨before, after, rfl⟩ := List.append_of_mem member
    rw [List.map_append, List.map_cons] at apart
    obtain ⟨_, later, between⟩ := List.nodup_append.mp apart
    have notBefore : r.lexState ∉ before.map (·.lexState) := fun inside =>
      between _ inside _ List.mem_cons_self rfl
    have notAfter : r.lexState ∉ after.map (·.lexState) := (List.nodup_cons.mp later).1
    have unbegun : (enterAll before {}).beginningWith r.lexState c = [] := by
      rw [enterAll_other notBefore, empty]
    unfold enterAll
    rw [List.foldl_append, List.foldl_cons]
    have kept := enterAll_other notAfter (r.enter (enterAll before {})) c
    unfold enterAll at kept
    rw [kept]
    exact LiteralIndex.register_lists (distinct r member) r.graph unbegun
  · rw [enterAll_other absent, empty]

/-- Literals that begin with each other, and in another lexical state one for which case does not matter. -/
def keywords : List Registration :=
  [{ lexState := 0, offset := 0, graph := {}
     index := [⟨['a'], 1, false, .unknown⟩, ⟨['a', 'b', 'c'], 2, false, .unknown⟩, ⟨['a', 'b'], 3, false, .unknown⟩,
       ⟨['a', 'c'], 4, false, .unknown⟩].foldl LiteralIndex.insert {} },
   { lexState := 1, offset := 0, graph := {}
     index := ({} : LiteralIndex).insert ⟨['I', 'f'], 5, true, .unknown⟩ }]

theorem keywords_longest_first : (keywords.map (·.lexState)).Nodup ∧
    (∀ r ∈ keywords, (r.index.literals.map (·.kind)).Nodup) ∧
    (∀ r ∈ keywords, r.index.Lists 'a' r.index.literals ((enterAll keywords {}).beginningWith r.lexState 'a')) ∧
    (enterAll keywords {}).beginningWith 2 'a' = [] := by
  have apart : (keywords.map (·.lexState)).Nodup := by decide
  have distinct : ∀ r ∈ keywords, (r.index.literals.map (·.kind)).Nodup := by decide
  obtain ⟨listed, others, _⟩ := lists_longest_first apart distinct
  exact ⟨apart, distinct, fun r member => listed r member 'a', others 2 (by decide) 'a'⟩

example : ((enterAll keywords {}).beginningWith 0 'a').map (·.image) = ["abc", "ac", "ab", "a"] := by cbv

end Registration

end TokenTables
