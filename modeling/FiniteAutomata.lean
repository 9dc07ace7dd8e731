import FiniteAutomata.Automaton
import FiniteAutomata.Automaton.Acceptance
import FiniteAutomata.Automaton.Isomorphism
import FiniteAutomata.Automaton.Numbering
import FiniteAutomata.Automaton.Summary
import FiniteAutomata.Automaton.Validation
import FiniteAutomata.Combination
import FiniteAutomata.CommandLine.Arguments
import FiniteAutomata.CommandLine.FileTree
import FiniteAutomata.CommandLine.Job
import FiniteAutomata.CommandLine.Report
import FiniteAutomata.CommandLine.Run
import FiniteAutomata.CommandLine.World
import FiniteAutomata.Determinization
import FiniteAutomata.DisjointSum
import FiniteAutomata.EpsilonElimination
import FiniteAutomata.Format.Document
import FiniteAutomata.Format.Error
import FiniteAutomata.Format.Reader
import FiniteAutomata.Format.Writer
import FiniteAutomata.Main
import FiniteAutomata.Minimization
import FiniteAutomata.OperationFailure
import FiniteAutomata.Product
import FiniteAutomata.Random.Generation
import FiniteAutomata.Random.Source
import FiniteAutomata.Refinement
import FiniteAutomata.Search
import FiniteAutomata.SortedMap
import FiniteAutomata.SortedSet
import FiniteAutomata.Stopwatch
import FiniteAutomata.SubsetConstruction
import FiniteAutomata.Text.Blank
import FiniteAutomata.Text.Decimal
import FiniteAutomata.Text.Lines
import FiniteAutomata.Text.Quoted
import FiniteAutomata.Text.Utf8
import FiniteAutomata.Transition
import FiniteAutomata.TransitionTable
import FiniteAutomata.Trimming
import FiniteAutomata.Words
import FiniteAutomata.Proofs.SearchReach
import FiniteAutomata.Proofs.Paths
import FiniteAutomata.Proofs.Validity
import FiniteAutomata.Proofs.EpsilonRemoval
import FiniteAutomata.Proofs.SearchAutomaton
import FiniteAutomata.Proofs.SubsetSearch
import FiniteAutomata.Proofs.SubsetLanguage
import FiniteAutomata.Proofs.Determinization
import FiniteAutomata.Proofs.Futures
import FiniteAutomata.Proofs.Trimming
import FiniteAutomata.Proofs.Pruning
import FiniteAutomata.Proofs.Tables
import FiniteAutomata.Proofs.Construction
import FiniteAutomata.Proofs.Isomorphism
import FiniteAutomata.Proofs.Numbering
import FiniteAutomata.Proofs.DisjointSum
import FiniteAutomata.Proofs.CanonicalNumbering
import FiniteAutomata.Proofs.Refinement
import FiniteAutomata.Proofs.PartitionRounds
import FiniteAutomata.Proofs.Quotient
import FiniteAutomata.Proofs.Minimality
import FiniteAutomata.Proofs.Minimization
import FiniteAutomata.Proofs.RefinementLoop
import FiniteAutomata.Proofs.Product
import FiniteAutomata.Proofs.Combination
import FiniteAutomata.Proofs.NormalForm
import FiniteAutomata.Proofs.StateLimit
import FiniteAutomata.Proofs.Renumbering
import FiniteAutomata.Proofs.TextLines
import FiniteAutomata.Proofs.Tokens
import FiniteAutomata.Proofs.Grammar
import FiniteAutomata.Proofs.Parsing
import FiniteAutomata.Proofs.Reading
import FiniteAutomata.Proofs.Writing
import FiniteAutomata.Proofs.RoundTrip
import FiniteAutomata.Proofs.AlgebraicLaws
import FiniteAutomata.Proofs.Relabelling
import FiniteAutomata.Proofs.CombinationFailures
import FiniteAutomata.Proofs.Checked
import FiniteAutomata.Proofs.Tours
import FiniteAutomata.Proofs.CheckedNumbering
import FiniteAutomata.Proofs.CheckedMerging
import FiniteAutomata.Proofs.Definedness
import FiniteAutomata.Proofs.Editing
import FiniteAutomata.Proofs.LineFaults
import FiniteAutomata.Proofs.PhysicalLines
import FiniteAutomata.Proofs.FirstFault
import FiniteAutomata.Proofs.LineReader
import FiniteAutomata.Proofs.LineSplitting
import FiniteAutomata.Proofs.ArgumentOrder
import FiniteAutomata.Proofs.Arguments
import FiniteAutomata.Proofs.Runs
import FiniteAutomata.Proofs.FileTree
import FiniteAutomata.Proofs.SavedResults
import FiniteAutomata.Proofs.FaultReports
import FiniteAutomata.Proofs.IsomorphismTest
import FiniteAutomata.Proofs.RepeatedNumbering
import FiniteAutomata.Proofs.LineWords
import FiniteAutomata.Proofs.Columns
import FiniteAutomata.Proofs.Layout
import FiniteAutomata.Proofs.Acceptance
import FiniteAutomata.Proofs.EpsilonClosure
import FiniteAutomata.Proofs.DisjointParts
import FiniteAutomata.Proofs.Draws
import FiniteAutomata.Proofs.Generation
import FiniteAutomata.Proofs.Words
import FiniteAutomata.Proofs.IncomingEdges
import FiniteAutomata.Proofs.ProductPairs
import FiniteAutomata.Proofs.SubsetLoop
import FiniteAutomata.Proofs.SubsetNumbering
import FiniteAutomata.Proofs.LineReader
