import TokenTables.Tokenizer
import TokenTables.Unvisited

/-!
Running a tokenizer. At each place the longest match counts, of equal ones the one of the earliest kind. A
lexical state may match the empty text once at a place; a second time there is a loop.
-/

namespace TokenTables

open Automaton (BeyondTable EntryName)

/-- A match at the beginning of a text. -/
structure Match where
  kind : Kind
  /-- In characters. -/
  length : Nat
deriving DecidableEq, Repr

namespace Match

/-- `m` is taken although `other` is there too: it is longer, or as long and of no later kind. -/
def beats (m other : Match) : Bool :=
  other.length < m.length || (m.length == other.length && m.kind ≤ other.kind)

/-- The best match so far, after one more. -/
def prefer (best : Option Match) (m : Match) : Option Match :=
  match best with
  | some first => if first.beats m then some first else some m
  | none => some m

def best (ms : List Match) : Option Match := ms.foldl prefer none

end Match

/-- A piece of the input with a kind. -/
structure Token where
  kind : Kind
  chars : List Char
  /-- Meant for the reader of the tokens and not for a parser. -/
  isSpecial : Bool := false
deriving DecidableEq, Repr

namespace Token

def image (k : Token) : String := String.ofList k.chars

/-- The token behind the last character. -/
def endOfInput : Token := ⟨Kind.endOfInput, [], false⟩

end Token

/-- Why a text has no tokens. Places are in bytes. -/
inductive ScanFault where
  /-- Nothing matches at this place. -/
  | noMatch (offset lexState : Nat)
  /-- The lexical state matches the empty text at this place again. -/
  | stuck (offset lexState : Nat)
  | beyondTable (cause : BeyondTable)
deriving DecidableEq, Repr

/-- A tokenizer at work. -/
structure Scan where
  lexState : Nat := Tokenizer.startState
  /-- The lexical states that have matched the empty text at this place. -/
  emptyAt : List Nat := []
  /-- Text of a token that is not finished. -/
  pending : List Char := []
  /-- How many bytes have been read. -/
  offset : Nat := 0
  rest : List Char
deriving DecidableEq, Repr

/-- The bytes that a text takes. -/
def byteLength (text : List Char) : Nat := text.foldl (fun length c => length + c.utf8Size) 0

namespace Tokenizer

/-- Reads `c` in one entry. -/
def readIn (t : Tokenizer) (c : Char) (reached : Option Kind × List EntryName) (name : EntryName) :
    Except BeyondTable (Option Kind × List EntryName) :=
  match t.entries[name]? with
  | some (.single e) => do
    if ← e.accepts t.dispatch c then
      return (Kind.better reached.1 e.kind,
        e.next.foldl (fun names n => if names.contains n then names else names ++ [n]) reached.2)
    else return reached
  | _ => .ok reached

/-- Reads `c` in the active entries: the best kind matched, and the names active afterwards. -/
def read (t : Tokenizer) (c : Char) (active : List EntryName) :
    Except BeyondTable (Option Kind × List EntryName) :=
  active.foldlM (t.readIn c) (none, [])

/-- The last match on the way through the automaton, with `consumed` characters read before. -/
def run (t : Tokenizer) (consumed : Nat) (active : List EntryName) (last : Option Match) :
    List Char → Except BeyondTable (Option Match)
  | [] => .ok last
  | c :: rest => do
    let (kind, next) ← t.read c active
    let last := (kind.map fun k => ⟨k, consumed + 1⟩).or last
    if next.isEmpty then return last else t.run (consumed + 1) next last rest

/-- The longest match of the automaton from `name` on, after `consumed` characters of the text. -/
def runFrom (t : Tokenizer) (name : Option EntryName) (consumed : Nat) (text : List Char) :
    Except BeyondTable (Option Match) :=
  match name with
  | some name => t.run consumed (t.expand name) none (text.drop consumed)
  | none => .ok none

/-- The matches by way of one literal: itself, and what the automaton goes on to match. -/
def literalMatches (t : Tokenizer) (lexState : Nat) (text : List Char) (e : Candidate) :
    Except BeyondTable (List Match) := do
  if e.begins text then
    let longer ← t.runFrom (t.literals.startStates[(lexState, e.kind)]?) e.chars.length text
    return ⟨e.kind, e.chars.length⟩ :: longer.toList
  else return []

/-- Every match that a lexical state offers. -/
def offers (t : Tokenizer) (lexState : Nat) (s : LexicalState) (text : List Char) :
    Except BeyondTable (List Match) := do
  let empty := (s.emptyMatch.map fun k => ⟨k, 0⟩).toList
  match text with
  | [] => return empty
  | c :: _ =>
    let any := (s.wildcard.map fun k => ⟨k, 1⟩).toList
    let automaton ← t.runFrom s.initial 0 text
    let literals ← (t.literals.beginningWith lexState c).mapM (t.literalMatches lexState text)
    return empty ++ any ++ automaton.toList ++ literals.flatten

/-- The match that counts at the beginning of `text`. -/
def longestMatch (t : Tokenizer) (lexState : Nat) (text : List Char) : Except BeyondTable (Option Match) :=
  match t.states[lexState]? with
  | some s => Match.best <$> t.offers lexState s text
  | none => .ok none

/-- What a match of `k` does with the text matched: the token it gives, and what stays unfinished. -/
def settle (t : Tokenizer) (k : Kind) (text : List Char) : Option Token × List Char :=
  match t.disposition? k with
  | some .special => (some ⟨k, text, true⟩, [])
  | some .skip => (none, [])
  | some .more => (none, text)
  | some .token | none => (some ⟨k, text, false⟩, [])

/-- Takes a match. -/
def take (t : Tokenizer) (s : Scan) (m : Match) : Option Token × Scan :=
  let text := s.rest.take m.length
  let (token, pending) := t.settle m.kind (s.pending ++ text)
  (token,
   { lexState := (t.nextState? m.kind).getD s.lexState
     emptyAt := if m.length = 0 then s.lexState :: s.emptyAt else []
     pending
     offset := s.offset + byteLength text
     rest := s.rest.drop m.length })

/-- Finds the next match and takes it. -/
def advance (t : Tokenizer) (s : Scan) : Except ScanFault (Option Token × Scan) :=
  match t.longestMatch s.lexState s.rest with
  | .error cause => .error (.beyondTable cause)
  | .ok none => .error (.noMatch s.offset s.lexState)
  | .ok (some m) =>
    if m.length = 0 ∧ s.emptyAt.contains s.lexState then .error (.stuck s.offset s.lexState)
    else .ok (t.take s m)

theorem lt_of_longestMatch {t : Tokenizer} {lexState : Nat} {text : List Char} {m : Match}
    (found : t.longestMatch lexState text = .ok (some m)) : lexState < t.states.length := by
  cases present : t.states[lexState]? with
  | none => simp [longestMatch, present] at found
  | some s => exact (List.getElem?_eq_some_iff.mp present).1

/-- Every match taken leaves less to read, or one lexical state less that may match the empty text. -/
theorem advance_decreases {t : Tokenizer} {s next : Scan} {token : Option Token}
    (unread : s.rest ≠ []) (advanced : t.advance s = .ok (token, next)) :
    Prod.Lex (· < ·) (· < ·) (next.rest.length, unvisited t.states.length next.emptyAt)
      (s.rest.length, unvisited t.states.length s.emptyAt) := by
  unfold advance at advanced
  split at advanced
  · cases advanced
  · cases advanced
  · rename_i m found
    split at advanced
    · cases advanced
    · rename_i noLoop
      have same : (t.take s m).2 = next := congrArg Prod.snd (Except.ok.inj advanced)
      subst same
      by_cases stays : m.length = 0
      · have fresh : s.emptyAt.contains s.lexState = false := by
          simpa [stays] using noLoop
        simp only [take, stays, if_true, List.drop_zero]
        exact Prod.Lex.right _ (unvisited_cons_lt (lt_of_longestMatch found) fresh)
      · have positive := List.length_pos_iff.mpr unread
        apply Prod.Lex.left
        simp only [take, List.length_drop]
        omega

set_option linter.unusedVariables false in
/-- All tokens from a place on, the end of the input last. -/
def tokensFrom (t : Tokenizer) (s : Scan) : Except ScanFault (List Token) :=
  if unread : s.rest = [] then .ok [Token.endOfInput]
  else
    match advanced : t.advance s with
    | .error e => .error e
    | .ok (token, next) => (token.toList ++ ·) <$> t.tokensFrom next
termination_by (s.rest.length, unvisited t.states.length s.emptyAt)
decreasing_by exact advance_decreases unread advanced

/-- The tokens of a text. -/
def tokenize (t : Tokenizer) (text : List Char) : Except ScanFault (List Token) :=
  t.tokensFrom { rest := text }

end Tokenizer

end TokenTables
