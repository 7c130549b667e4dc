import TokenTables.Proofs.KindSet
import TokenTables.Proofs.Literal.Tables

/-!
The cells of an index of literals. Whatever is inserted, and in whatever order, a cell holds a kind just when a literal of
this kind passes there, and it holds it among those that end just when the character there is the last one.
-/

namespace TokenTables

/-- `c` is a key of `w`: its lower case if the run ignores case, otherwise either case of it if its literal does. -/
def LiteralSettings.IsKey (options : LiteralSettings) (ignoreCase : Bool) (w c : Char) : Prop :=
  if options.ignoreCase then c = Text.toLower w
  else if ignoreCase then c = Text.toLower w ∨ c = Text.toUpper w
  else c = w

instance (options : LiteralSettings) (ignoreCase : Bool) (w c : Char) : Decidable (options.IsKey ignoreCase w c) :=
  inferInstanceAs <| Decidable <|
    if options.ignoreCase then c = Text.toLower w
    else if ignoreCase then c = Text.toLower w ∨ c = Text.toUpper w
    else c = w

/-- The literal has a character with the key `c` at `pos`, which is its last one or not. -/
def Literal.Passes (l : Literal) (options : LiteralSettings) (last : Bool) (pos : Nat) (c : Char) : Prop :=
  ∃ w, l.chars[pos]? = some w ∧ options.IsKey l.ignoreCase w c ∧ (last = true ↔ pos + 1 = l.length)

namespace LiteralCell

/-- Those that end at the cell, or those that go on. -/
def kinds (cell : LiteralCell) (last : Bool) : KindSet := if last then cell.ending else cell.continuing

/-- Takes in a literal that ends there or goes on. -/
def add (last : Bool) (k : Kind) (cell : LiteralCell) : LiteralCell :=
  if last then cell.addEnding k else cell.addContinuing k

theorem kinds_blank {last : Bool} {k : Kind} : (({} : LiteralCell).kinds last).contains k = false := by
  cases last <;> exact KindSet.contains_empty

theorem kinds_add {cell : LiteralCell} {last other : Bool} {added k : Kind} :
    ((cell.add last added).kinds other).contains k = true ↔
      (other = last ∧ k = added) ∨ (cell.kinds other).contains k = true := by
  cases last <;> cases other <;> simp [add, kinds, addEnding, addContinuing, KindSet.contains_insert]

end LiteralCell

namespace LiteralIndex

variable {t : LiteralIndex} {l : Literal} {last : Bool} {pos p : Nat} {c : Char} {k : Kind}

theorem mem_cellKeys {options : LiteralSettings} {ignoreCase : Bool} {w : Char} :
    c ∈ cellKeys options ignoreCase w ↔ options.IsKey ignoreCase w c := by
  unfold cellKeys LiteralSettings.IsKey
  split
  · simp
  · split
    · split
      · rename_i same
        simp [← beq_iff_eq.mp same]
      · simp
    · simp

theorem nodup_cellKeys (options : LiteralSettings) (ignoreCase : Bool) (w : Char) :
    (cellKeys options ignoreCase w).Nodup := by
  unfold cellKeys
  grind

/-- The cell of a position and a character. -/
def cell? (t : LiteralIndex) (pos : Nat) (c : Char) : Option LiteralCell := t.cells[pos]?.bind (·[c]?)

/-- The cell holds the kind among those that end there, or among those that go on. -/
def Holds (t : LiteralIndex) (last : Bool) (pos : Nat) (c : Char) (k : Kind) : Prop :=
  ∃ cell, t.cell? pos c = some cell ∧ (cell.kinds last).contains k = true

/-- No cell is kept without a kind. -/
def AllUsed (t : LiteralIndex) : Prop := ∀ pos c cell, t.cell? pos c = some cell →
  ∃ last k, (cell.kinds last).contains k = true

/-! ### One character -/

theorem getElem?_addToCells {cells : LiteralCells} {keys : List Char} {change : LiteralCell → LiteralCell}
    (distinct : keys.Nodup) : (addToCells cells keys change)[c]? =
      if c ∈ keys then some (change (cells[c]?.getD {})) else cells[c]? := by
  unfold addToCells
  induction keys generalizing cells with
  | nil => simp
  | cons key rest ih =>
    obtain ⟨fresh, distinct⟩ := List.nodup_cons.mp distinct
    rw [List.foldl_cons, ih distinct, Std.TreeMap.getElem?_alter]
    by_cases here : key = c
    · subst here
      simp [fresh]
    · have apart : compare key c ≠ .eq := fun same => here (Std.LawfulEqOrd.eq_of_compare same)
      simp [apart, Ne.symm here]

/-- Adds one character of a literal. -/
def addChar (t : LiteralIndex) (l : Literal) (pos : Nat) (last : Bool) (w : Char) : LiteralIndex :=
  { t with cells := t.cells.modify pos fun cells =>
      addToCells cells (cellKeys t.options l.ignoreCase w) (LiteralCell.add last l.kind) }

theorem addChars_cons {w : Char} {rest : List Char} :
    t.addChars l pos (w :: rest) = (t.addChar l pos rest.isEmpty w).addChars l (pos + 1) rest := rfl

theorem size_addChar {w : Char} : (t.addChar l pos last w).cells.size = t.cells.size := by
  simp [addChar]

theorem cell?_addChar {w : Char} (room : pos < t.cells.size) : (t.addChar l pos last w).cell? p c =
    if p = pos ∧ t.options.IsKey l.ignoreCase w c then some (((t.cell? p c).getD {}).add last l.kind)
    else t.cell? p c := by
  unfold cell? addChar
  rw [Array.getElem?_modify]
  by_cases here : pos = p
  · subst here
    have distinct := nodup_cellKeys t.options l.ignoreCase w
    simp [Array.getElem?_eq_getElem room, getElem?_addToCells distinct, mem_cellKeys]
  · simp [here, Ne.symm here]

theorem holds_addChar {w : Char} {other : Bool} (room : pos < t.cells.size) :
    (t.addChar l pos last w).Holds other p c k ↔
      (k = l.kind ∧ p = pos ∧ t.options.IsKey l.ignoreCase w c ∧ other = last) ∨ t.Holds other p c k := by
  unfold Holds
  rw [cell?_addChar room]
  split
  · rename_i here
    have old : (((t.cell? p c).getD {}).kinds other).contains k = true ↔
        ∃ cell, t.cell? p c = some cell ∧ (cell.kinds other).contains k = true := by
      cases t.cell? p c <;> simp [LiteralCell.kinds_blank]
    simp only [Option.some.injEq, exists_eq_left', LiteralCell.kinds_add, old]
    tauto
  · rename_i apart
    tauto

theorem allUsed_addChar {w : Char} (used : t.AllUsed) (room : pos < t.cells.size) :
    (t.addChar l pos last w).AllUsed := by
  intro p c cell found
  rw [cell?_addChar room] at found
  split at found
  · obtain rfl := Option.some.inj found
    exact ⟨last, l.kind, LiteralCell.kinds_add.mpr (.inl ⟨rfl, rfl⟩)⟩
  · exact used p c cell found

/-! ### One literal -/

theorem holds_addChars {rest : List Char} (room : pos + rest.length ≤ t.cells.size) :
    (t.addChars l pos rest).Holds last p c k ↔
      (k = l.kind ∧ ∃ i w, rest[i]? = some w ∧ p = pos + i ∧ t.options.IsKey l.ignoreCase w c ∧
        (last = true ↔ i + 1 = rest.length)) ∨ t.Holds last p c k := by
  induction rest generalizing t pos with
  | nil => simp [addChars]
  | cons w rest ih =>
    rw [List.length_cons] at room
    rw [addChars_cons, ih (by rw [size_addChar]; omega), holds_addChar (by omega), ← or_assoc]
    refine or_congr_left ?_
    have ends : last = rest.isEmpty ↔ (last = true ↔ 0 + 1 = (w :: rest).length) := by
      cases rest <;> simp
    constructor
    · rintro (⟨rfl, i, v, found, rfl, key, ending⟩ | ⟨rfl, rfl, key, ending⟩)
      · exact ⟨rfl, i + 1, v, by simpa using found, by omega, key, by simpa using ending⟩
      · exact ⟨rfl, 0, w, rfl, rfl, key, ends.mp ending⟩
    · rintro ⟨rfl, i, v, found, rfl, key, ending⟩
      cases i with
      | zero =>
        obtain rfl := Option.some.inj found
        exact .inr ⟨rfl, rfl, key, ends.mpr ending⟩
      | succ i => exact .inl ⟨rfl, i, v, by simpa using found, by omega, key, by simpa using ending⟩

theorem allUsed_addChars {rest : List Char} (used : t.AllUsed) (room : pos + rest.length ≤ t.cells.size) :
    (t.addChars l pos rest).AllUsed := by
  induction rest generalizing t pos with
  | nil => exact used
  | cons w rest ih =>
    rw [List.length_cons] at room
    rw [addChars_cons]
    exact ih (allUsed_addChar used (by omega)) (by rw [size_addChar]; omega)

theorem size_addChars {rest : List Char} : (t.addChars l pos rest).cells.size = t.cells.size := by
  induction rest generalizing t pos with
  | nil => rfl
  | cons w rest ih => rw [addChars_cons, ih, size_addChar]

/-- The index with room for the characters of a literal, whose length and kind it knows. -/
def readied (t : LiteralIndex) (l : Literal) : LiteralIndex :=
  { t with
    cells := t.cells ++ Array.replicate (l.length - t.cells.size) {}
    maxLength := max t.maxLength l.length
    lastKind := some (max (t.lastKind.getD l.kind) l.kind) }

theorem size_readied : (t.readied l).cells.size = max t.cells.size l.length := by
  simp [readied]
  omega

theorem cell?_readied : (t.readied l).cell? p c = t.cell? p c := by
  unfold cell? readied
  by_cases inside : p < t.cells.size
  · rw [Array.getElem?_append_left inside]
  · have outside : t.cells.size ≤ p := by omega
    simp only [Array.getElem?_append_right outside, Array.getElem?_eq_none outside, Array.getElem?_replicate]
    split <;> simp

theorem insert_eq (some : l.chars ≠ []) : t.insert l =
    { (t.readied l).addChars l 0 l.chars with literals := ((t.readied l).addChars l 0 l.chars).literals ++ [l] } := by
  unfold insert
  rw [if_neg (mt List.isEmpty_iff.mp some)]
  rfl

theorem insert_empty (none : l.chars = []) : t.insert l = t := (insert_inserted t l).same none

theorem lastKind_insert (some : l.chars ≠ []) :
    (t.insert l).lastKind = .some (max (t.lastKind.getD l.kind) l.kind) := by
  obtain ⟨cells, same⟩ := addChars_eq l 0 l.chars (t.readied l)
  rw [insert_eq some, same]
  rfl

theorem size_insert (some : l.chars ≠ []) : (t.insert l).cells.size = max t.cells.size l.length := by
  rw [insert_eq some, ← size_readied]
  exact size_addChars

theorem room_readied : 0 + l.chars.length ≤ (t.readied l).cells.size := by
  rw [size_readied, Literal.length]
  omega

theorem holds_insert (some : l.chars ≠ []) : (t.insert l).Holds last p c k ↔
    (l.kind = k ∧ l.Passes t.options last p c) ∨ t.Holds last p c k := by
  have before : (t.readied l).Holds last p c k ↔ t.Holds last p c k := by
    unfold Holds
    rw [cell?_readied]
  have added := @holds_addChars (t.readied l) l last 0 p c k l.chars room_readied
  rw [before] at added
  rw [insert_eq some]
  refine Iff.trans added (or_congr_left (and_congr eq_comm ?_))
  simp only [Nat.zero_add, Literal.Passes]
  constructor
  · rintro ⟨i, w, found, rfl, key, ending⟩
    exact ⟨w, found, key, ending⟩
  · rintro ⟨w, found, key, ending⟩
    exact ⟨p, w, found, rfl, key, ending⟩

theorem allUsed_insert (some : l.chars ≠ []) (used : t.AllUsed) : (t.insert l).AllUsed := by
  have before : (t.readied l).AllUsed := by
    intro p c cell found
    rw [cell?_readied] at found
    exact used p c cell found
  rw [insert_eq some]
  exact allUsed_addChars before room_readied

/-! ### All literals -/

/-- The index describes exactly these literals. -/
structure Describes (t : LiteralIndex) (settings : LiteralSettings) (ls : List Literal) : Prop where
  options : t.options = settings
  literals : t.literals = ls
  size : t.cells.size = t.maxLength
  longest : t.maxLength = (ls.map Literal.length).max?.getD 0
  lastKind : t.lastKind = (ls.map Literal.kind).max?
  /-- With `last` these are the kinds that end at the cell, without it those that go on. -/
  holds : ∀ last pos c k, t.Holds last pos c k ↔ ∃ l ∈ ls, l.kind = k ∧ l.Passes settings last pos c
  used : t.AllUsed

theorem describes_empty (options : LiteralSettings) : Describes { options } options [] := by
  have none : ∀ pos c, ({ options } : LiteralIndex).cell? pos c = .none := fun pos c => rfl
  refine ⟨rfl, rfl, rfl, rfl, rfl, fun last pos c k => ?_, fun pos c cell found => ?_⟩
  · simp [Holds, none]
  · rw [none] at found
    cases found

theorem max?_concat (ns : List Nat) (n : Nat) : (ns ++ [n]).max? = some (max (ns.max?.getD n) n) := by
  cases ns with
  | nil => simp
  | cons first rest =>
    rw [List.cons_append, List.max?_cons', List.max?_cons', List.foldl_append]
    rfl

theorem Describes.insert {settings : LiteralSettings} {ls : List Literal} (describes : t.Describes settings ls)
    (some : l.chars ≠ []) : (t.insert l).Describes settings (ls ++ [l]) := by
  have inserted := insert_inserted t l
  refine ⟨inserted.options.trans describes.options, ?_, ?_, ?_, ?_, fun last pos c k => ?_,
    allUsed_insert some describes.used⟩
  · rw [inserted.literals some, describes.literals]
  · rw [size_insert some, inserted.maxLength, describes.size]
  · rw [inserted.maxLength, describes.longest, List.map_append, List.map_singleton, max?_concat]
    cases (ls.map Literal.length).max? <;> simp
  · rw [lastKind_insert some, describes.lastKind, List.map_append, List.map_singleton, max?_concat]
  · rw [holds_insert some, describes.holds, describes.options]
    simp only [List.mem_append, List.mem_singleton, or_and_right, exists_or, exists_eq_left]
    exact or_comm

/-- Whatever literals are inserted, the index describes those that have characters, in the order of insertion. -/
theorem cells_exact (settings : LiteralSettings) (calls : List Literal) :
    (calls.foldl LiteralIndex.insert { options := settings }).Describes settings
      (calls.filter fun l => !l.chars.isEmpty) := by
  have all : ∀ (rest before : List Literal) (t : LiteralIndex), t.Describes settings before →
      (rest.foldl LiteralIndex.insert t).Describes settings (before ++ rest.filter fun l => !l.chars.isEmpty) := by
    intro rest
    induction rest with
    | nil => simp
    | cons l rest ih =>
      intro before t describes
      rw [List.foldl_cons]
      by_cases none : l.chars = []
      · rw [insert_empty none]
        simpa [none] using ih before t describes
      · have next := ih (before ++ [l]) (t.insert l) (describes.insert none)
        simpa [none] using next
  exact all calls [] _ (describes_empty settings)

end LiteralIndex

end TokenTables
