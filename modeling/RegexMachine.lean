import RegexMachine.Automaton.Basic
import RegexMachine.Automaton.Edit
import RegexMachine.Automaton.Renumber
import RegexMachine.DFA.Basic
import RegexMachine.DFA.Minimal
import RegexMachine.DFA.Refinement
import RegexMachine.Expr.Basic
import RegexMachine.Expr.Spans
import RegexMachine.Expr.Walk
import RegexMachine.NFA.Basic
import RegexMachine.NFA.Combine
import RegexMachine.NFA.Simulation
import RegexMachine.NFA.Subset
import RegexMachine.Proofs.Automaton.Build
import RegexMachine.Proofs.Automaton.Edit
import RegexMachine.Proofs.Automaton.InStep
import RegexMachine.Proofs.Automaton.Numbering
import RegexMachine.Proofs.Automaton.Path
import RegexMachine.Proofs.Automaton.Relabel
import RegexMachine.Proofs.Automaton.Renumber
import RegexMachine.Proofs.Automaton.WellFormed
import RegexMachine.Proofs.Built
import RegexMachine.Proofs.Closure
import RegexMachine.Proofs.Combination
import RegexMachine.Proofs.Compilation
import RegexMachine.Proofs.Completion
import RegexMachine.Proofs.DFA.Access
import RegexMachine.Proofs.DFA.Block
import RegexMachine.Proofs.DFA.Canonical
import RegexMachine.Proofs.DFA.Complete
import RegexMachine.Proofs.DFA.Minimal
import RegexMachine.Proofs.DFA.Quotient
import RegexMachine.Proofs.DFA.Refinement
import RegexMachine.Proofs.DFA.Renaming
import RegexMachine.Proofs.DFA.Renaming.Block
import RegexMachine.Proofs.DFA.Residual
import RegexMachine.Proofs.DFA.Turns
import RegexMachine.Proofs.Determinization
import RegexMachine.Proofs.Discovery
import RegexMachine.Proofs.Expr.Grouping
import RegexMachine.Proofs.Expr.Language
import RegexMachine.Proofs.Expr.Reading
import RegexMachine.Proofs.Expr.Rounds
import RegexMachine.Proofs.Expr.Shape
import RegexMachine.Proofs.Expr.Spans
import RegexMachine.Proofs.Expr.Splits
import RegexMachine.Proofs.Expr.Thompson
import RegexMachine.Proofs.Expr.Walk
import RegexMachine.Proofs.Integrity
import RegexMachine.Proofs.Least
import RegexMachine.Proofs.Literal
import RegexMachine.Proofs.Minimization
import RegexMachine.Proofs.NFA.Bridge
import RegexMachine.Proofs.NFA.Combine
import RegexMachine.Proofs.NFA.InOrder
import RegexMachine.Proofs.NFA.OnePass
import RegexMachine.Proofs.NFA.Renaming
import RegexMachine.Proofs.NFA.Simplest
import RegexMachine.Proofs.NFA.Simulation
import RegexMachine.Proofs.NFA.Subset
import RegexMachine.Proofs.Numbering
import RegexMachine.Proofs.Refusal
import RegexMachine.Proofs.Renaming
import RegexMachine.Proofs.Repetition
import RegexMachine.Proofs.Reports
import RegexMachine.Proofs.Search
import RegexMachine.Proofs.Search.Routes
import RegexMachine.Proofs.StateSet
import RegexMachine.Proofs.Trail
import RegexMachine.Proofs.Undo
import RegexMachine.Proofs.WrittenForm
import RegexMachine.Record
import RegexMachine.Regex
import RegexMachine.Search
import RegexMachine.StateSet
import RegexMachine.Target
import RegexMachine.Traced
