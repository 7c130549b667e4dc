import Mathlib
import TokenTables.Proofs.Automaton.Expression
import TokenTables.Proofs.Automaton.Ways

/-!
What the paths through a built fragment read: from its start to its stop exactly the texts that the expression
matches, whatever was in the graph before.
-/

namespace TokenTables.Automaton.Graph

variable {before after : Graph} {stop : Nat} {texts : Language Char}

/-- The stop state of a new fragment leads nowhere, so a path to it has not been there before. -/
theorem Constructed.path_iff (made : Constructed before after stop texts) {text : List Char} :
    after.Path before.size text stop ↔ text ∈ texts := by
  have inside := made.shape.enclosed
  rw [← made.shape.ways_eq, mem_ways]
  constructor
  · intro path
    exact (inside.path_within made.loose path (Nat.le_refl _) (Nat.lt_of_le_of_lt inside.start_le inside.stop_lt)).2 rfl
  · exact Way.path

/-- What is read on the way through the fragment of an expression is what the expression matches. -/
theorem build_reads {g : Graph} {settings : BuildSettings} {r : Regex} {f : Fragment}
    (ok : (g.build settings r).outcome = .ok f) (text : List Char) :
    (g.build settings r).graph.Path f.start text f.stop ↔
      r.Matches settings.definitions settings.ignoreCase text := by
  obtain ⟨start, made⟩ := build_ok ok
  rw [start]
  exact made.path_iff

/-- A letter, or nothing. -/
def letterSettings : BuildSettings where
  definitions := [("LETTER", .choice .unknown [.literal .unknown "b", .literal .unknown ""])]
  ignoreCase := false
  unicodeInput := false

/-- Any number of letters and vowels. -/
def anyLetters : Regex :=
  .repetition .unknown (.choice .unknown [.reference .unknown "LETTER",
    .choice .unknown [.charClass .unknown ⟨false, [.single 'a', .single 'e']⟩]]) 0 none

/-- The choices are spliced and their single characters put together, in a graph that has states already. -/
theorem anyLetters_reads :
    let g : Graph := { states := #[{ epsilon := [1] }, {}] }
    (g.build letterSettings anyLetters).outcome = .ok ⟨2, 3⟩ ∧
      (g.build letterSettings anyLetters).graph.Path 2 ['e', 'b'] 3 := by
  intro g
  have ok : (g.build letterSettings anyLetters).outcome = .ok ⟨2, 3⟩ := by
    cbv
  refine ⟨ok, (build_reads ok _).mpr ?_⟩
  have letter : Regex.Matches letterSettings.definitions false (.reference .unknown "LETTER") ['b'] :=
    .reference rfl (.choice List.mem_cons_self (.literal ⟨by decide, trivial⟩))
  have vowel : Regex.Matches letterSettings.definitions false
      (.charClass .unknown ⟨false, [.single 'a', .single 'e']⟩) ['e'] :=
    .charClass ⟨by decide, iff_of_true ⟨.single 'e', by simp, .inl (by decide)⟩ rfl⟩
  refine @Regex.Matches.oneMore _ _ _ _ _ _ ['e'] ['b'] (by decide) ?_ ?_
  · exact .choice (.tail _ (.head _)) (.choice (.head _) vowel)
  · exact @Regex.Matches.oneMore _ _ _ _ _ _ ['b'] [] (by decide) (.choice (.head _) letter) .noMore

end TokenTables.Automaton.Graph
