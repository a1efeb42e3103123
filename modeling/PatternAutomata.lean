import PatternAutomata.Main
import PatternAutomata.Bits
import PatternAutomata.StateSet.Blocks
import PatternAutomata.StateSet.Basic
import PatternAutomata.Discovery
import PatternAutomata.Nfa.Closure
import PatternAutomata.Nfa.Simulation
import PatternAutomata.Nfa.Elimination
import PatternAutomata.Proofs.Nfa.Combinators
import PatternAutomata.Proofs.Dfa.Subsets
import PatternAutomata.Proofs.Dfa.InStep
import PatternAutomata.Proofs.Dfa.Merging
import PatternAutomata.Proofs.Dfa.Confluence
import PatternAutomata.Proofs.Dfa.Record
import PatternAutomata.Proofs.Nfa.Minting
import PatternAutomata.Proofs.Nfa.Combination
import PatternAutomata.Proofs.Nfa.Productive
import PatternAutomata.Proofs.Pattern.Assembly
import PatternAutomata.Proofs.Pattern.Grammar
import PatternAutomata.Proofs.Pattern.Parser
import PatternAutomata.Proofs.Dfa.Renaming
import PatternAutomata.Proofs.Dfa.Trim
import PatternAutomata.Proofs.Dfa.Residual
import PatternAutomata.Proofs.Pattern.Compiled
import PatternAutomata.Proofs.Pattern.Lookback
import PatternAutomata.Proofs.Pattern.Descent
import PatternAutomata.Proofs.Pattern.Fault
import PatternAutomata.Proofs.CommandLine.Session
import PatternAutomata.Proofs.Nfa.Accessible
import PatternAutomata.Proofs.Nfa.Elimination
import PatternAutomata.Proofs.Nfa.Direct
import PatternAutomata.Proofs.Pattern.Counting
import PatternAutomata.Proofs.Dfa.Numbering
import PatternAutomata.Proofs.Dfa.Worklist
import PatternAutomata.Proofs.Nfa.StackSearch
import PatternAutomata.Proofs.Nfa.Walk
import PatternAutomata.Proofs.Pattern.Piece
import PatternAutomata.Proofs.Pattern.Render
import PatternAutomata.Proofs.Pattern.Growth
import PatternAutomata.Proofs.Dot
import PatternAutomata.Proofs.Pattern.Text
import PatternAutomata.Proofs.Nfa.AnyOrder
import PatternAutomata.Proofs.Pattern.Recursion
import PatternAutomata.Proofs.StateSet.Calls
