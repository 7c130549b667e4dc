import TokenTables.Proofs.Tokenizer.Generate
import TokenTables.Proofs.Tokenizer.Scan

/-!
What becomes of the text. Every match covers a piece of it. Pieces that leave their token unfinished belong to the first
later one that does not, and such a stretch is a token or is skipped. At the end of the text there may be pieces left that
no other one finishes; they are lost, and nothing else is.
-/

namespace TokenTables

/-- What one match covers. -/
structure Piece where
  kind : Kind
  chars : List Char
deriving DecidableEq, Repr

namespace Tokenizer

variable {t : Tokenizer}

def pieceOf (s : Scan) (m : Match) : Piece := ⟨m.kind, s.rest.take m.length⟩

/-- The loop goes from a place to the end of the text, and its matches cover these pieces. -/
inductive Cuts (t : Tokenizer) : Scan → List Piece → Prop where
  | done {s} (read : s.rest = []) : Cuts t s []
  | cut {s m pieces} (unread : s.rest ≠ []) (found : t.longestMatch s.lexState s.rest = .ok (some m))
    (advances : t.advance s = .ok (t.take s m)) (after : Cuts t (t.take s m).2 pieces) :
    Cuts t s (pieceOf s m :: pieces)

/-- The kind leaves its token unfinished. -/
def LeavesUnfinished (t : Tokenizer) (p : Piece) : Prop := t.disposition? p.kind = some .more

/-- Pieces that belong together: all but the last leave their token unfinished. -/
structure Stretch (t : Tokenizer) where
  unfinished : List Piece
  last : Piece
  goesOn : ∀ p ∈ unfinished, t.LeavesUnfinished p
  ends : ¬ t.LeavesUnfinished last

namespace Stretch

def pieces (st : Stretch t) : List Piece := st.unfinished ++ [st.last]

def chars (st : Stretch t) : List Char := st.pieces.flatMap (·.chars)

/-- The token of a stretch that is not skipped. -/
def token? (st : Stretch t) : Option Token :=
  if t.disposition? st.last.kind = some .skip then none
  else some ⟨st.last.kind, st.chars, t.disposition? st.last.kind == some .special⟩

end Stretch

/-- The stretches of a text, and what no match has finished at its end. -/
structure Parted (t : Tokenizer) (pieces : List Piece) where
  stretches : List (Stretch t)
  left : List Piece
  whole : pieces = stretches.flatMap (·.pieces) ++ left
  unfinished : ∀ p ∈ left, t.LeavesUnfinished p

def Parted.tokens {pieces : List Piece} (parted : Parted t pieces) : List Token :=
  parted.stretches.filterMap (·.token?) ++ [Token.endOfInput]

/-! ### Settling pieces -/

theorem settle_unfinished {p : Piece} (unfinished : t.LeavesUnfinished p) (text : List Char) :
    t.settle p.kind text = (none, text) := by
  unfold settle
  rw [unfinished]

theorem settle_stretch (st : Stretch t) : t.settle st.last.kind st.chars = (st.token?, []) := by
  have ends := st.ends
  unfold LeavesUnfinished at ends
  unfold settle Stretch.token?
  cases disposition : t.disposition? st.last.kind with
  | none => rfl
  | some d =>
    cases d with
    | more => exact absurd disposition ends
    | token | skip | special => rfl

theorem take_eq (s : Scan) (m : Match) : (t.take s m).1 = (t.settle m.kind (s.pending ++ (pieceOf s m).chars)).1 ∧
    (t.take s m).2.pending = (t.settle m.kind (s.pending ++ (pieceOf s m).chars)).2 := ⟨rfl, rfl⟩

theorem Cuts.text {s : Scan} {pieces : List Piece} (cuts : t.Cuts s pieces) : pieces.flatMap (·.chars) = s.rest := by
  induction cuts with
  | done read => exact read.symm
  | cut _ _ _ _ ih =>
    rw [List.flatMap_cons, ih]
    exact List.take_append_drop _ _

/-- The loop does not end just after a match of the empty text. -/
theorem Cuts.last_ne_nil {s : Scan} {pieces : List Piece} (cuts : t.Cuts s pieces) {p : Piece}
    (last : pieces.getLast? = some p) : p.chars ≠ [] := by
  induction cuts with
  | done => cases last
  | @cut s m pieces unread _ _ after ih =>
    cases after with
    | done read =>
      obtain rfl := Option.some.inj last
      intro empty
      have taken : s.rest.take m.length = [] := empty
      have dropped : s.rest.drop m.length = [] := read
      exact unread (by rw [← List.take_append_drop m.length s.rest, taken, dropped]; rfl)
    | cut => exact ih (by simpa using last)

theorem Cuts.unique {s : Scan} {pieces others : List Piece} (cuts : t.Cuts s pieces) (again : t.Cuts s others) :
    pieces = others := by
  induction cuts generalizing others with
  | done read =>
    cases again with
    | done => rfl
    | cut unread => exact absurd read unread
  | cut unread found _ _ ih =>
    cases again with
    | done read => exact absurd read unread
    | cut _ foundAgain _ after =>
      obtain rfl := Option.some.inj (Except.ok.inj (found.symm.trans foundAgain))
      rw [ih after]

/-! ### Parting pieces into stretches -/

namespace Parted

variable {pieces : List Piece}

/-- Pieces that are all unfinished make no stretch. -/
def unfinishedOnly (unfinished : ∀ p ∈ pieces, t.LeavesUnfinished p) : Parted t pieces :=
  ⟨[], pieces, rfl, unfinished⟩

/-- One more stretch before the others. -/
def after (parted : Parted t pieces) (st : Stretch t) : Parted t (st.pieces ++ pieces) :=
  { stretches := st :: parted.stretches
    left := parted.left
    whole := (congrArg (st.pieces ++ ·) parted.whole).trans (by rw [List.flatMap_cons, List.append_assoc])
    unfinished := parted.unfinished }

theorem tokens_after (parted : Parted t pieces) (st : Stretch t) :
    (parted.after st).tokens = st.token?.toList ++ parted.tokens := by
  unfold tokens after
  cases token : st.token? with
  | none => rw [List.filterMap_cons_none token]; rfl
  | some k => rw [List.filterMap_cons_some token]; rfl

theorem text (parted : Parted t pieces) :
    pieces.flatMap (·.chars) = parted.stretches.flatMap (·.chars) ++ parted.left.flatMap (·.chars) := by
  conv_lhs => rw [parted.whole, List.flatMap_append, List.flatMap_assoc]
  rfl

/-- What is left ends with the last piece. -/
theorem getLast?_left (parted : Parted t pieces) (some : parted.left ≠ []) :
    pieces.getLast? = .some (parted.left.getLast some) := by
  conv_lhs => rw [parted.whole, List.getLast?_append, List.getLast?_eq_some_getLast some]
  rfl

/-- The last piece of a text tells whether something is left. -/
theorem left_eq_nil_iff (parted : Parted t pieces) :
    parted.left = [] ↔ ∀ p, pieces.getLast? = some p → ¬ t.LeavesUnfinished p := by
  constructor
  · intro none p last
    rw [parted.whole, none, List.append_nil] at last
    cases stretches : parted.stretches using List.reverseRecOn with
    | nil =>
      rw [stretches] at last
      cases last
    | append_singleton others st =>
      have same : st.last = p := by
        rw [stretches, List.flatMap_append, List.flatMap_singleton] at last
        simpa [Stretch.pieces] using last
      rw [← same]
      exact st.ends
  · intro ends
    by_contra some
    exact ends _ (parted.getLast?_left some) (parted.unfinished _ (List.getLast_mem some))

end Parted

/-- The loop from a place on, when the pieces before it have left a token unfinished. -/
theorem tokensFrom_parted {s : Scan} (before : List Piece) {tokens : List Token}
    (pending : s.pending = before.flatMap (·.chars)) (unfinished : ∀ p ∈ before, t.LeavesUnfinished p)
    (ran : t.tokensFrom s = .ok tokens) :
    ∃ pieces, t.Cuts s pieces ∧ ∃ parted : Parted t (before ++ pieces), tokens = parted.tokens := by
  induction s using tokensFrom.induct t generalizing before tokens with
  | case1 s read =>
    rw [tokensFrom_read read] at ran
    obtain rfl := Except.ok.inj ran
    refine ⟨[], .done read, ?_⟩
    rw [List.append_nil]
    exact ⟨.unfinishedOnly unfinished, rfl⟩
  | case2 s unread e fails =>
    rw [tokensFrom_error unread fails] at ran
    cases ran
  | case3 s unread token next advances ih =>
    obtain ⟨m, found, taken⟩ := advance_takes advances
    obtain rfl : token = (t.take s m).1 := congrArg Prod.fst taken.symm
    obtain rfl : next = (t.take s m).2 := congrArg Prod.snd taken.symm
    rw [tokensFrom_ok unread advances] at ran
    obtain ⟨later, ranLater⟩ : ∃ later, t.tokensFrom (t.take s m).2 = .ok later := by
      cases rest : t.tokensFrom (t.take s m).2 with
      | ok later => exact ⟨later, rfl⟩
      | error e =>
        rw [rest] at ran
        cases ran
    rw [ranLater] at ran
    obtain rfl := Except.ok.inj ran
    obtain ⟨token, kept⟩ := take_eq (t := t) s m
    rw [pending] at token kept
    by_cases goesOn : t.LeavesUnfinished (pieceOf s m)
    · -- The piece waits with those before it.
      have settled := settle_unfinished goesOn (before.flatMap (·.chars) ++ (pieceOf s m).chars)
      obtain ⟨pieces, cuts, parted, rfl⟩ := ih (before ++ [pieceOf s m])
        (by rw [kept, show t.settle m.kind _ = _ from settled]; simp)
        (List.forall_mem_append.mpr ⟨unfinished, List.forall_mem_singleton.mpr goesOn⟩) ranLater
      refine ⟨_, .cut unread found advances cuts, ?_⟩
      rw [token, show t.settle m.kind _ = _ from settled, List.append_cons]
      exact ⟨parted, rfl⟩
    · -- The piece ends a stretch, and nothing waits any more.
      let st : Stretch t := ⟨before, pieceOf s m, unfinished, goesOn⟩
      have settled : t.settle m.kind (before.flatMap (·.chars) ++ (pieceOf s m).chars) = (st.token?, []) := by
        rw [← settle_stretch st]
        simp [st, Stretch.chars, Stretch.pieces, pieceOf]
      obtain ⟨pieces, cuts, parted, rfl⟩ := ih [] (by rw [kept, settled]; rfl)
        (List.forall_mem_nil _) ranLater
      refine ⟨_, .cut unread found advances cuts, ?_⟩
      rw [token, settled, List.append_cons]
      exact ⟨parted.after st, (parted.tokens_after st).symm⟩

/-- The tokens and the stretches skipped make up the text. -/
def Covered (t : Tokenizer) (text : List Char) (tokens : List Token) : Prop :=
  ∃ stretches : List (Stretch t), t.Cuts { rest := text } (stretches.flatMap (·.pieces)) ∧
    text = stretches.flatMap (·.chars) ∧ tokens = stretches.filterMap (·.token?) ++ [Token.endOfInput]

/-- The tokens of a text are those of its stretches in order. The stretches and the pieces that are left at the end make
up the text, so that nothing is lost just when the last match finishes its token. -/
theorem tokenize_covers {text : List Char} {tokens : List Token} (ran : t.tokenize text = .ok tokens) :
    ∃ pieces, t.Cuts { rest := text } pieces ∧ ∃ parted : Parted t pieces, tokens = parted.tokens ∧
      text = parted.stretches.flatMap (·.chars) ++ parted.left.flatMap (·.chars) ∧
      (t.Covered text tokens ↔ parted.left.flatMap (·.chars) = []) ∧
      (t.Covered text tokens ↔ ∀ p, pieces.getLast? = some p → ¬ t.LeavesUnfinished p) := by
  obtain ⟨pieces, cuts, parted, rfl⟩ : ∃ pieces, t.Cuts { rest := text } pieces ∧ ∃ parted : Parted t pieces,
      tokens = parted.tokens := tokensFrom_parted [] rfl (fun p member => nomatch member) ran
  have whole : text = parted.stretches.flatMap (·.chars) ++ parted.left.flatMap (·.chars) :=
    cuts.text.symm.trans parted.text
  have covered : t.Covered text parted.tokens ↔ parted.left = [] := by
    constructor
    · rintro ⟨stretches, cutsToo, _, _⟩
      obtain rfl := cutsToo.unique cuts
      let nothingLeft : Parted t (stretches.flatMap (·.pieces)) :=
        ⟨stretches, [], (List.append_nil _).symm, fun p member => nomatch member⟩
      exact parted.left_eq_nil_iff.mpr (nothingLeft.left_eq_nil_iff.mp rfl)
    · intro none
      refine ⟨parted.stretches, ?_, ?_, rfl⟩
      · have same := parted.whole
        rw [none, List.append_nil] at same
        rwa [← same]
      · rw [none] at whole
        exact whole.trans (List.append_nil _)
  refine ⟨pieces, cuts, parted, rfl, whole, covered.trans ⟨fun none => by rw [none]; rfl, fun empty => ?_⟩,
    covered.trans parted.left_eq_nil_iff⟩
  by_contra some
  exact cuts.last_ne_nil (parted.getLast?_left some) (List.flatMap_eq_nil_iff.mp empty _ (List.getLast_mem some))

end Tokenizer

/-- Text of a token that never ends. -/
def openEnded : Grammar where
  states := ["DEFAULT"]
  productions := [⟨.more, none, false, [⟨.regex ⟨1, none, false, .literal .unknown "a"⟩, none, none, .unknown⟩], .unknown⟩]

theorem openEnded_loses_text : ∃ made, generate openEnded {} = .ok made ∧
    made.tokenizer.tokenize ['a'] = .ok [Token.endOfInput] ∧ ¬ made.tokenizer.Covered ['a'] [Token.endOfInput] := by
  have facts : (generate openEnded {}).map (fun made => (made.tokenizer.tokenize ['a'],
      made.tokenizer.longestMatch 0 ['a'], made.tokenizer.disposition? 1)) =
      .ok (.ok [Token.endOfInput], .ok (some ⟨1, 1⟩), some .more) := by
    cbv
  cases generated : generate openEnded {} with
  | error e =>
    rw [generated] at facts
    cases facts
  | ok made =>
    rw [generated] at facts
    obtain ⟨ran, first, more⟩ : made.tokenizer.tokenize ['a'] = .ok [Token.endOfInput] ∧
        made.tokenizer.longestMatch 0 ['a'] = .ok (some ⟨1, 1⟩) ∧ made.tokenizer.disposition? 1 = some .more := by
      simpa using Except.ok.inj facts
    refine ⟨made, rfl, ran, fun covered => ?_⟩
    obtain ⟨pieces, cuts, _, _, _, _, finished⟩ := Tokenizer.tokenize_covers ran
    cases cuts with
    | done read => cases read
    | cut _ found _ after =>
      obtain rfl := Option.some.inj (Except.ok.inj (first.symm.trans found))
      cases after with
      | done => exact finished.mp covered _ rfl more
      | cut unread => exact unread rfl

end TokenTables
