import TokenTables.Automaton.Merging
import TokenTables.Diagnostic.Log
import TokenTables.Literal.Index

/-!
Options for one run of the generator.
-/

namespace TokenTables

structure GenerationOptions where
  /-- Every production ignores case. -/
  ignoreCase : Bool := false
  /-- The tokenizer reads characters, not bytes. -/
  unicodeInput : Bool := false
  /-- Literals go into the automaton and not into literal tables. -/
  literalsInAutomaton : Bool := false
  /-- States are merged while the automaton is closed. -/
  mergeStates : Bool := true
  diagnostics : LogPolicy := {}
deriving DecidableEq, Repr

namespace GenerationOptions

def closing (o : GenerationOptions) : Automaton.Closing := if o.mergeStates then .merging else .plain

def literalSettings (o : GenerationOptions) : LiteralSettings := ⟨o.ignoreCase, o.unicodeInput⟩

end GenerationOptions

end TokenTables
