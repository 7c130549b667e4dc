import Mathlib.Computability.Language
import Mathlib.Order.CompletePartialOrder
import TokenTables.Regex.Language

/-!
The texts of an expression as a language, one equation for each construct.
-/

namespace TokenTables.Regex

/-- The texts that the expression matches. -/
def language (defs : Definitions) (ignoreCase : Bool) (r : Regex) : Language Char :=
  {text | Matches defs ignoreCase r text}

variable {defs : Definitions} {ignoreCase : Bool} {loc : Location} {body : Regex}

theorem mem_language {r : Regex} {text : List Char} :
    text ∈ r.language defs ignoreCase ↔ Matches defs ignoreCase r text := Iff.rfl

theorem mem_language_literal {written : String} {text : List Char} :
    text ∈ (literal loc written).language defs ignoreCase ↔ SpelledAs ignoreCase text written.toList := by
  rw [mem_language]
  constructor
  · rintro ⟨spelled⟩
    exact spelled
  · exact .literal

theorem mem_language_charClass {cls : CharClass} {text : List Char} :
    text ∈ (charClass loc cls).language defs ignoreCase ↔ ∃ c, text = [c] ∧ cls.Accepts ignoreCase c := by
  rw [mem_language]
  constructor
  · rintro ⟨⟩
    exact ⟨_, rfl, ‹_›⟩
  · rintro ⟨c, rfl, accepts⟩
    exact .charClass accepts

theorem language_sequence_nil : (sequence loc []).language defs ignoreCase = 1 := by
  ext text
  rw [mem_language, Language.mem_one]
  constructor
  · rintro ⟨⟩
    rfl
  · rintro rfl
    exact .nothing

theorem language_sequence_cons {first : Regex} {rest : List Regex} :
    (sequence loc (first :: rest)).language defs ignoreCase =
      first.language defs ignoreCase * (sequence loc rest).language defs ignoreCase := by
  ext text
  rw [mem_language, Language.mem_mul]
  constructor
  · rintro ⟨⟩
    exact ⟨_, ‹_›, _, ‹_›, rfl⟩
  · rintro ⟨text, here, more, after, rfl⟩
    exact .sequence here after

theorem language_sequence {parts : List Regex} :
    (sequence loc parts).language defs ignoreCase = (parts.map (language defs ignoreCase)).prod := by
  induction parts with
  | nil => exact language_sequence_nil
  | cons first rest ih => rw [language_sequence_cons, ih, List.map_cons, List.prod_cons]

theorem mem_language_choice {alternatives : List Regex} {text : List Char} :
    text ∈ (choice loc alternatives).language defs ignoreCase ↔
      ∃ r ∈ alternatives, text ∈ r.language defs ignoreCase := by
  rw [mem_language]
  constructor
  · rintro ⟨⟩
    exact ⟨_, ‹_›, ‹_›⟩
  · rintro ⟨r, member, here⟩
    exact .choice member here

theorem language_reference {label : String} {r : Regex} (found : defs.lookup label = some r) :
    (reference loc label).language defs ignoreCase = r.language defs ignoreCase := by
  ext text
  rw [mem_language, mem_language]
  constructor
  · rintro ⟨⟩
    rename_i s lookup here
    rw [found] at lookup
    obtain rfl := Option.some.inj lookup
    exact here
  · exact .reference found

/-! ### Repetition -/

/-- One time more, or no more if enough has been seen. -/
theorem mem_language_repetition {least : Nat} {most : Option Nat} {text : List Char} :
    text ∈ (repetition loc body least most).language defs ignoreCase ↔
      (least = 0 ∧ text = []) ∨ (most ≠ some 0 ∧ text ∈ body.language defs ignoreCase *
        (repetition loc body (least - 1) (most.map (· - 1))).language defs ignoreCase) := by
  rw [mem_language, Language.mem_mul]
  constructor
  · rintro ⟨⟩
    · exact .inl ⟨rfl, rfl⟩
    · exact .inr ⟨‹_›, _, ‹_›, _, ‹_›, rfl⟩
  · rintro (⟨rfl, rfl⟩ | ⟨allowed, text, here, more, after, rfl⟩)
    · exact .noMore
    · exact .oneMore allowed here after

theorem language_repetition_succ {least : Nat} {most : Option Nat} (allowed : most ≠ some 0) :
    (repetition loc body (least + 1) most).language defs ignoreCase =
      body.language defs ignoreCase *
        (repetition loc body least (most.map (· - 1))).language defs ignoreCase := by
  ext text
  rw [mem_language_repetition]
  simp [allowed]

theorem language_repetition_zero_none :
    (repetition loc body 0 none).language defs ignoreCase =
      KStar.kstar (body.language defs ignoreCase) := by
  ext text
  constructor
  · intro matched
    generalize whole : repetition loc body 0 none = r at matched
    replace matched : Matches defs ignoreCase r text := matched
    induction matched with
    | noMore => exact Language.nil_mem_kstar _
    | oneMore _ here _ _ ih =>
      obtain ⟨rfl, rfl, rfl, rfl⟩ := repetition.inj whole
      rw [← Language.one_add_self_mul_kstar_eq_kstar, Language.mem_add]
      exact .inr (Language.append_mem_mul here (ih rfl))
    | _ => cases whole
  · intro member
    obtain ⟨parts, rfl, each⟩ := Language.mem_kstar.mp member
    clear member
    induction parts with
    | nil => exact .noMore
    | cons first rest ih =>
      exact .oneMore (by simp) (each first List.mem_cons_self)
        (ih fun part member => each part (List.mem_cons_of_mem _ member))

/-- A number of times at least. -/
theorem language_repetition_none {least : Nat} :
    (repetition loc body least none).language defs ignoreCase =
      body.language defs ignoreCase ^ least * KStar.kstar (body.language defs ignoreCase) := by
  induction least with
  | zero => rw [pow_zero, one_mul, language_repetition_zero_none]
  | succ least ih =>
    rw [language_repetition_succ (by simp), Option.map_none, ih, pow_succ', mul_assoc]

theorem one_le_one_add_pow (texts : Language Char) (count : Nat) : 1 ≤ (1 + texts) ^ count := by
  induction count with
  | zero => rw [pow_zero]
  | succ count ih =>
    rw [pow_succ', add_mul, one_mul]
    exact le_add_right ih

/-- The first of several optional texts may be taken to be there, unless they are all left out. -/
theorem one_add_pow_succ (texts : Language Char) (count : Nat) :
    (1 + texts) ^ (count + 1) = 1 + texts * (1 + texts) ^ count := by
  refine le_antisymm ?_ ?_
  · induction count with
    | zero => rw [zero_add, pow_one, pow_zero, mul_one]
    | succ count ih =>
      rw [pow_succ' _ (count + 1), add_mul, one_mul]
      refine add_le (ih.trans (add_le_add_right (mul_le_mul_right ?_ _) _)) (le_add_left le_rfl)
      rw [pow_succ', add_mul, one_mul]
      exact le_add_right le_rfl
  · rw [pow_succ', add_mul, one_mul]
    exact add_le_add_left (one_le_one_add_pow texts count) _

theorem language_repetition_zero_some {most : Nat} :
    (repetition loc body 0 (some most)).language defs ignoreCase =
      (1 + body.language defs ignoreCase) ^ most := by
  induction most with
  | zero =>
    ext text
    rw [mem_language_repetition]
    simp
  | succ most ih =>
    rw [one_add_pow_succ, ← ih]
    ext text
    rw [mem_language_repetition, Language.mem_add]
    simp

/-- A number of times at least, and then some more up to the bound. -/
theorem language_repetition_some {least most : Nat} (ordered : least ≤ most) :
    (repetition loc body least (some most)).language defs ignoreCase =
      body.language defs ignoreCase ^ least * (1 + body.language defs ignoreCase) ^ (most - least) := by
  induction least generalizing most with
  | zero => rw [pow_zero, one_mul, Nat.sub_zero, language_repetition_zero_some]
  | succ least ih =>
    obtain ⟨rest, rfl⟩ : ∃ rest, most = rest + 1 := ⟨most - 1, by omega⟩
    rw [language_repetition_succ (by simp), Option.map_some, Nat.add_sub_cancel, ih (by omega), pow_succ',
      mul_assoc, Nat.add_sub_add_right]

end TokenTables.Regex
