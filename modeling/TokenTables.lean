import TokenTables.Proofs.Automaton.CharClasses
import TokenTables.Proofs.Automaton.ClosingModes
import TokenTables.Proofs.Automaton.FragmentPaths
import TokenTables.Proofs.Automaton.KindsCarried
import TokenTables.Proofs.Automaton.Locality
import TokenTables.Proofs.Automaton.Made
import TokenTables.Proofs.Automaton.ReferenceCycles
import TokenTables.Proofs.Automaton.SharedDispatch
import TokenTables.Proofs.Diagnostic.Calls
import TokenTables.Proofs.Grammar.CyclesFound
import TokenTables.Proofs.Grammar.Draft
import TokenTables.Proofs.Grammar.HiddenStrings
import TokenTables.Proofs.KindSet.Changes
import TokenTables.Proofs.Literal.Cells
import TokenTables.Proofs.Literal.FirstCharacters
import TokenTables.Proofs.Literal.LongestFirst
import TokenTables.Proofs.Tokenizer.Continuations
import TokenTables.Proofs.Tokenizer.Coverage
import TokenTables.Proofs.Tokenizer.Isolation
import TokenTables.Proofs.Tokenizer.KindTables
import TokenTables.Proofs.Tokenizer.LongestMatch
import TokenTables.Proofs.Tokenizer.LoopSearch
import TokenTables.Proofs.Tokenizer.MixedCase
import TokenTables.Proofs.Tokenizer.Numbering
import TokenTables.Proofs.Tokenizer.Policies
import TokenTables.Proofs.Tokenizer.RunWideCase
import TokenTables.Proofs.Tokenizer.UnmatchableChoices
import TokenTables.Proofs.Tokenizer.WellFormed
import TokenTables.Tokenizer.Generate
