import PatternAutomata.SortedSet
import PatternAutomata.SortedMap
import PatternAutomata.Exploration
import PatternAutomata.Text.Blank
import PatternAutomata.Text.GraphemeExtend
import PatternAutomata.Text.Quoted
import PatternAutomata.Dialect
import PatternAutomata.SyntaxError
import PatternAutomata.Text.Decimal
import PatternAutomata.Expr
import PatternAutomata.Fault
import PatternAutomata.ParseTree
import PatternAutomata.ParseTree.Printer
import PatternAutomata.Parser.Rules
import PatternAutomata.Event
import PatternAutomata.Parser
import PatternAutomata.Automaton.Nfa
import PatternAutomata.Automaton.Dfa
import PatternAutomata.Automaton.Printer
import PatternAutomata.Automaton.Simulation
import PatternAutomata.Automaton.Closure
import PatternAutomata.Automaton.OfElements
import PatternAutomata.Automaton.Subset
import PatternAutomata.Automaton.Interleave
import PatternAutomata.Thompson
import PatternAutomata.Thompson.Sources
import PatternAutomata.Automaton.Store
import PatternAutomata.Direct
import PatternAutomata.CommandError
import PatternAutomata.TestFile
import PatternAutomata.CommandLine
import PatternAutomata.Directory
import PatternAutomata.Main
import PatternAutomata.Expr.Pattern
import PatternAutomata.ParseTree.Language
import PatternAutomata.ParseTree.Expression
import PatternAutomata.Parser.Brackets
import PatternAutomata.Parser.Machine
import PatternAutomata.Proofs.Outcome
import PatternAutomata.Proofs.Labels
import PatternAutomata.Proofs.Automaton.Paths
import PatternAutomata.Proofs.Automaton.Invariant
import PatternAutomata.Proofs.Automaton.Simulation
import PatternAutomata.Proofs.Automaton.Operations
import PatternAutomata.Proofs.Automaton.Interleave
import PatternAutomata.Proofs.Automaton.Deterministic
import PatternAutomata.Proofs.Automaton.OfElements
import PatternAutomata.Proofs.Automaton.Trim
import PatternAutomata.Proofs.Automaton.Subset
import PatternAutomata.Proofs.Automaton.Built
import PatternAutomata.Proofs.Thompson.Valid
import PatternAutomata.Proofs.Automaton.Equivalence
import PatternAutomata.Proofs.Thompson.Combinators
import PatternAutomata.Proofs.Thompson.Language
import PatternAutomata.Proofs.Thompson.Reached
import PatternAutomata.Proofs.Thompson.Fragments
import PatternAutomata.Proofs.Thompson.Counter
import PatternAutomata.Proofs.Thompson.Trim
import PatternAutomata.Proofs.ParseTree.WellFormed
import PatternAutomata.Proofs.Parser.Scan
import PatternAutomata.Proofs.Parser.RoundTrip
import PatternAutomata.Proofs.Parser.Consumed
import PatternAutomata.Proofs.Parser.Listing
import PatternAutomata.Proofs.Parser.Surroundings
import PatternAutomata.Proofs.Parser.Composition
import PatternAutomata.Proofs.ParseTree.Printed
import PatternAutomata.Proofs.Options
import PatternAutomata.Proofs.Positions.Ends
import PatternAutomata.Proofs.Positions.Sequences
import PatternAutomata.Proofs.Positions.Follow
import PatternAutomata.Proofs.Positions.Next
import PatternAutomata.Proofs.Direct
import PatternAutomata.Proofs.Positions.Exact
import PatternAutomata.Proofs.Compiled
import PatternAutomata.Proofs.TestFile
import PatternAutomata.Proofs.Automaton.SharedLabels
import PatternAutomata.Proofs.Automaton.AnyLabels
import PatternAutomata.Proofs.Automaton.EachNew
import PatternAutomata.Proofs.Automaton.Store
import PatternAutomata.Proofs.Thompson.Steps
import PatternAutomata.Proofs.Thompson.Sources
import PatternAutomata.Proofs.Collisions
import PatternAutomata.Proofs.Useful
import PatternAutomata.Proofs.PositionStates
import PatternAutomata.Proofs.Lockstep
import PatternAutomata.Proofs.Parser.Machine
import PatternAutomata.Proofs.Parser.Calls
import PatternAutomata.Proofs.BreadthFirst
import PatternAutomata.Proofs.Automaton.SubsetStates
import PatternAutomata.Proofs.Automaton.ProductStates
import PatternAutomata.Proofs.Thompson.Ties
import PatternAutomata.Proofs.Thompson.NormalForm
import PatternAutomata.Proofs.Automaton.Closure
import PatternAutomata.Proofs.Automaton.Transitions
import PatternAutomata.Proofs.Automaton.DisjointUnion
import PatternAutomata.Worklist
import PatternAutomata.Proofs.Worklist
import PatternAutomata.Proofs.Automaton.Stages
import PatternAutomata.Proofs.Automaton.Loops
import PatternAutomata.Parser.Descent
import PatternAutomata.Proofs.Parser.Descent
import PatternAutomata.Proofs.Parser.Termination
