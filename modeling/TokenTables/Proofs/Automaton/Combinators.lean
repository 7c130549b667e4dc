import TokenTables.Proofs.Automaton.Build

/-!
Fragments put together from others: in turn, side by side, and repeated.
-/

namespace TokenTables.Automaton.Build

open TokenTables.Automaton.Graph

variable {α : Type} {c c' : Construction} {base : Graph} {texts more : Language Char}

/-! ### In turn -/

/-- What has been joined so far, nothing at first. -/
def Joined (base g : Graph) (texts : Language Char) : Option Fragment → Prop
  | none => g = base ∧ texts = 1
  | some f => f.start = base.size ∧ Constructed base g f.stop texts

theorem joined_none (g : Graph) : Joined g g 1 none := ⟨rfl, rfl⟩

theorem join_ok {part : Build Fragment} {before after : Option Fragment}
    (joined : Joined base c.graph texts before) (makes : Makes part more)
    (run : (part >>= fun f => join before f) c = .ok after c') :
    Joined base c'.graph (texts * more) after := by
  obtain ⟨f, between, built, rest⟩ := bind_ok run
  obtain ⟨start, made⟩ := makes _ _ _ built
  cases before with
  | none =>
    obtain ⟨rfl, rfl⟩ := pure_ok rest
    obtain ⟨rfl, rfl⟩ := joined
    rw [one_mul]
    exact ⟨start, made⟩
  | some earlier =>
    obtain ⟨firstStart, first⟩ := joined
    obtain ⟨_, last, linked, rest⟩ := bind_ok rest
    have graph := linkEpsilon_ok linked
    obtain ⟨rfl, rfl⟩ := pure_ok rest
    rw [graph, start]
    exact ⟨firstStart, first.join made⟩

theorem orNothing_ok {before : Option Fragment} {f : Fragment} (joined : Joined base c.graph texts before)
    (run : orNothing before c = .ok f c') :
    f.start = base.size ∧ Constructed base c'.graph f.stop texts := by
  cases before with
  | none =>
    obtain ⟨rfl, rfl⟩ := joined
    exact nothing_makes _ _ _ run
  | some earlier =>
    obtain ⟨rfl, rfl⟩ := pure_ok run
    exact joined

theorem joinAll_ok {xs : List α} {build : α → Build Fragment} {language : α → Language Char}
    (each : ∀ x ∈ xs, Makes (build x) (language x)) {before after : Option Fragment}
    (joined : Joined base c.graph texts before)
    (run : (xs.map build).foldlM (fun before part => part >>= fun f => join before f) before c = .ok after c') :
    Joined base c'.graph (texts * (xs.map language).prod) after := by
  induction xs generalizing c before texts with
  | nil =>
    obtain ⟨rfl, rfl⟩ := pure_ok run
    simpa using joined
  | cons x rest ih =>
    obtain ⟨between, c₁, first, others⟩ := bind_ok run
    have here := join_ok joined (each x List.mem_cons_self) first
    have there := ih (fun y member => each y (List.mem_cons_of_mem _ member)) here others
    rwa [mul_assoc, ← List.prod_cons, ← List.map_cons] at there

theorem inTurn_makes {xs : List α} {build : α → Build Fragment} {language : α → Language Char}
    (each : ∀ x ∈ xs, Makes (build x) (language x)) :
    Makes (inTurn (xs.map build)) (xs.map language).prod := by
  intro c f c' run
  obtain ⟨joined, between, all, rest⟩ := bind_ok run
  have whole := joinAll_ok each (joined_none c.graph) all
  rw [one_mul] at whole
  exact orNothing_ok whole rest

theorem copies_ok {part : Build Fragment} (makes : Makes part more) {count : Nat}
    {before after : Option Fragment} (joined : Joined base c.graph texts before)
    (run : copies part count before c = .ok after c') :
    Joined base c'.graph (texts * more ^ count) after := by
  induction count generalizing c before texts with
  | zero =>
    obtain ⟨rfl, rfl⟩ := pure_ok run
    rwa [pow_zero, mul_one]
  | succ count ih =>
    obtain ⟨f, c₁, built, rest⟩ := bind_ok run
    obtain ⟨between, c₂, linked, others⟩ := bind_ok rest
    have both : (part >>= fun f => join before f) c = .ok between c₂ := ok_bind built linked
    have there := ih (join_ok joined makes both) others
    rwa [mul_assoc, ← pow_succ'] at there

/-! ### Side by side -/

/-- Builds a part between the two ends of a fork. -/
def branch (start stop : StateId) (part : Build Fragment) : Build Unit := do
  let f ← part
  linkEpsilon start f.start
  linkEpsilon f.stop stop

theorem mem_forkTexts {skippable repeatable : Bool} {pieces : List Piece} {text : List Char} :
    text ∈ forkTexts skippable repeatable pieces ↔ (skippable = true ∧ text = []) ∨
      ∃ p ∈ pieces, text ∈ p.texts * (if repeatable then KStar.kstar p.texts else 1) := Iff.rfl

theorem forkAll_ok {xs : List α} (done : List α) {build : α → Build Fragment} {language : α → Language Char}
    (each : ∀ x ∈ xs, Makes (build x) (language x)) {pieces : List Piece} {u : Unit}
    (forked : Forked base c.graph false false pieces) (made : pieces.map Piece.texts = done.map language)
    (run : (xs.map build).forM (branch base.size (base.size + 1)) c = .ok u c') :
    ∃ pieces, Forked base c'.graph false false pieces ∧ pieces.map Piece.texts = (done ++ xs).map language := by
  induction xs generalizing c pieces done with
  | nil =>
    obtain ⟨-, rfl⟩ := pure_ok run
    exact ⟨pieces, forked, by rwa [List.append_nil]⟩
  | cons x rest ih =>
    obtain ⟨_, c₃, first, others⟩ := bind_ok run
    obtain ⟨f, c₁, built, links⟩ := bind_ok first
    obtain ⟨_, c₂, ahead, back⟩ := bind_ok links
    obtain ⟨start, constructed⟩ := each x List.mem_cons_self _ _ _ built
    have graph₂ := linkEpsilon_ok ahead
    have graph₃ := linkEpsilon_ok back
    have linked : c₃.graph = c₁.graph.linkPiece base.size false false c.graph.size f.stop := by
      rw [graph₃, graph₂, start]
      rfl
    have next := forked.link false constructed (fun skips : false = true => nomatch skips)
    rw [← linked] at next
    have all := ih (done ++ [x]) (fun y member => each y (List.mem_cons_of_mem _ member)) next
      (by rw [List.map_append, List.map_append, made]; rfl) others
    rwa [List.append_assoc] at all

/-- Parts between the two ends of a fork. -/
def fork (parts : List (Build Fragment)) : Build Fragment := do
  let start ← addState
  let stop ← addState
  parts.forM (branch start stop)
  return ⟨start, stop⟩

theorem fork_makes {xs : List α} {build : α → Build Fragment} {language : α → Language Char}
    (each : ∀ x ∈ xs, Makes (build x) (language x)) :
    Makes (fork (xs.map build)) {text | ∃ x ∈ xs, text ∈ language x} := by
  intro c f c' run
  obtain ⟨start, c₁, first, rest⟩ := bind_ok run
  obtain ⟨stop, c₂, second, rest⟩ := bind_ok rest
  obtain ⟨_, c₃, all, rest⟩ := bind_ok rest
  obtain ⟨rfl, graph₁⟩ := addState_ok first
  obtain ⟨rfl, graph₂⟩ := addState_ok second
  obtain ⟨rfl, rfl⟩ := pure_ok rest
  have stopIs : c₁.graph.size = c.graph.size + 1 := by simp [graph₁]
  rw [graph₁] at graph₂
  have begun : Forked c.graph c₂.graph false false [] := by
    rw [graph₂]
    exact .begin
  rw [stopIs] at all
  obtain ⟨pieces, forked, made⟩ := forkAll_ok [] each begun rfl all
  have constructed := forked.constructed
  have same : forkTexts false false pieces = {text | ∃ x ∈ xs, text ∈ language x} := by
    ext text
    have both : (∃ p ∈ pieces, text ∈ p.texts) ↔ ∃ x ∈ xs, text ∈ language x := by
      have listed : (∃ l ∈ pieces.map Piece.texts, text ∈ l) ↔ ∃ l ∈ xs.map language, text ∈ l := by
        rw [made, List.nil_append]
      simpa using listed
    rw [mem_forkTexts]
    simp only [Bool.false_eq_true, false_and, false_or, if_false, mul_one]
    exact both
  rw [same] at constructed
  refine ⟨rfl, ?_⟩
  show Constructed c.graph c'.graph c₁.graph.size _
  rwa [stopIs]

theorem oneOf_makes {xs : List α} {build : α → Build Fragment} {language : α → Language Char}
    (each : ∀ x ∈ xs, Makes (build x) (language x)) :
    Makes (oneOf (xs.map build)) {text | ∃ x ∈ xs, text ∈ language x} := by
  match xs with
  | [] => exact fork_makes each
  | [x] =>
    have same : ({text | ∃ y ∈ [x], text ∈ language y} : Language Char) = language x := by
      ext text
      show (∃ y ∈ [x], text ∈ language y) ↔ text ∈ language x
      simp only [List.mem_singleton, exists_eq_left]
    rw [same]
    exact each x List.mem_cons_self
  | x :: y :: rest => exact fork_makes each

/-! ### Repeated -/

theorem around_makes (skippable repeatable : Bool) {body : Build Fragment} (makes : Makes body texts) :
    Makes (around skippable repeatable body)
      ((if skippable then 1 else 0) + texts * (if repeatable then KStar.kstar texts else 1)) := by
  intro c f c' run
  obtain ⟨start, c₁, first, rest⟩ := bind_ok run
  obtain ⟨stop, c₂, second, rest⟩ := bind_ok rest
  obtain ⟨inner, c₃, built, rest⟩ := bind_ok rest
  obtain ⟨rfl, graph₁⟩ := addState_ok first
  obtain ⟨rfl, graph₂⟩ := addState_ok second
  obtain ⟨innerStart, made⟩ := makes _ _ _ built
  have stopIs : c₁.graph.size = c.graph.size + 1 := by simp [graph₁]
  rw [graph₁] at graph₂
  have begun : Forked c.graph c₂.graph false repeatable [] := by
    rw [graph₂]
    exact .begin
  have linked : c'.graph = c₃.graph.linkPiece c.graph.size skippable repeatable c₂.graph.size inner.stop ∧
      f = ⟨c.graph.size, c₁.graph.size⟩ := by
    rw [← innerStart]
    unfold linkPiece
    rw [← stopIs]
    cases skippable <;> cases repeatable <;> cases rest <;> exact ⟨rfl, rfl⟩
  obtain ⟨graph, rfl⟩ := linked
  have forked := begun.link skippable made (fun _ => rfl)
  rw [← graph] at forked
  have constructed := forked.constructed
  refine ⟨rfl, ?_⟩
  have same : forkTexts skippable repeatable ([] ++ [⟨c₂.graph.size, inner.stop, c₃.graph.size, texts⟩]) =
      (if skippable then 1 else 0) + texts * (if repeatable then KStar.kstar texts else 1) := by
    ext text
    rw [mem_forkTexts, Language.mem_add]
    cases skippable <;> simp
  rw [same] at constructed
  show Constructed c.graph c'.graph c₁.graph.size _
  rwa [stopIs]

theorem zeroOrMore_makes {body : Build Fragment} (makes : Makes body texts) :
    Makes (zeroOrMore body) (KStar.kstar texts) := by
  have made := around_makes true true makes
  rwa [if_pos rfl, if_pos rfl, Language.one_add_self_mul_kstar_eq_kstar] at made

theorem oneOrMore_makes {body : Build Fragment} (makes : Makes body texts) :
    Makes (oneOrMore body) (texts * KStar.kstar texts) := by
  have made := around_makes false true makes
  rwa [if_neg (by simp), if_pos rfl, zero_add] at made

theorem zeroOrOne_makes {body : Build Fragment} (makes : Makes body texts) :
    Makes (zeroOrOne body) (1 + texts) := by
  have made := around_makes true false makes
  rwa [if_pos rfl, if_neg (by simp), mul_one] at made

theorem atLeast_makes {body : Build Fragment} (makes : Makes body texts) (least : Nat) :
    Makes (do orNothing (← join (← copies body least none) (← zeroOrMore body)))
      (texts ^ least * KStar.kstar texts) := by
  intro c f c' run
  obtain ⟨copied, c₁, first, rest⟩ := bind_ok run
  obtain ⟨tail, c₂, last, rest⟩ := bind_ok rest
  obtain ⟨joined, c₃, linked, rest⟩ := bind_ok rest
  have front := copies_ok makes (joined_none c.graph) first
  rw [one_mul] at front
  have whole : (zeroOrMore body >>= fun f => join copied f) c₁ = .ok joined c₃ := ok_bind last linked
  exact orNothing_ok (join_ok front (zeroOrMore_makes makes) whole) rest

theorem between_makes {body : Build Fragment} (makes : Makes body texts) (least most : Nat) :
    Makes (do orNothing (← copies (zeroOrOne body) (most - least) (← copies body least none)))
      (texts ^ least * (1 + texts) ^ (most - least)) := by
  intro c f c' run
  obtain ⟨copied, c₁, first, rest⟩ := bind_ok run
  obtain ⟨joined, c₂, last, rest⟩ := bind_ok rest
  have front := copies_ok makes (joined_none c.graph) first
  rw [one_mul] at front
  exact orNothing_ok (copies_ok (zeroOrOne_makes makes) front last) rest

/-- A repetition within bounds. -/
theorem repeated_makes {body : Build Fragment} {defs : Definitions} {ignoreCase : Bool} {loc : Location}
    {r : Regex} (makes : Makes body (r.language defs ignoreCase)) (least : Nat) (most : Option Nat)
    (ordered : ∀ bound, most = some bound → least ≤ bound) :
    Makes (repeated body least most) ((Regex.repetition loc r least most).language defs ignoreCase) := by
  unfold repeated
  split
  · rw [Regex.language_repetition_none, pow_zero, one_mul]
    exact zeroOrMore_makes makes
  · rw [Regex.language_repetition_none, pow_one]
    exact oneOrMore_makes makes
  · rw [Regex.language_repetition_some (by omega), pow_zero, one_mul, Nat.sub_zero, pow_one]
    exact zeroOrOne_makes makes
  · rw [Regex.language_repetition_none]
    exact atLeast_makes makes least
  · rename_i bound _
    rw [Regex.language_repetition_some (ordered bound rfl)]
    exact between_makes makes least bound

end TokenTables.Automaton.Build
