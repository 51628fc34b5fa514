import Automata.CommandLine.Arguments
import Automata.CommandLine.Command
import Automata.DFA.Basic
import Automata.DFA.Comparison
import Automata.DFA.Minimization
import Automata.Description.Basic
import Automata.Description.Reader
import Automata.Determinism
import Automata.Diagram
import Automata.Error
import Automata.FinMap
import Automata.FinSet
import Automata.Grammar.Basic
import Automata.Grammar.Conversion
import Automata.Grammar.Printer
import Automata.Grammar.Reader
import Automata.Main
import Automata.Moore
import Automata.NFA.Acceptance
import Automata.NFA.Basic
import Automata.NFA.Determinization
import Automata.Partition
import Automata.Proofs.Acceptance
import Automata.Proofs.AddedSymbols
import Automata.Proofs.Ambiguity
import Automata.Proofs.BacktrackingLoop
import Automata.Proofs.CanonicalForm
import Automata.Proofs.Comparison
import Automata.Proofs.CompletedGrammars
import Automata.Proofs.Derivations
import Automata.Proofs.DerivedGrammars
import Automata.Proofs.Description
import Automata.Proofs.DescriptionFormat
import Automata.Proofs.Determinization
import Automata.Proofs.Diagrams
import Automata.Proofs.Drafts
import Automata.Proofs.DrawnNodes
import Automata.Proofs.FirstFailures
import Automata.Proofs.GrammarFormat
import Automata.Proofs.GrammarLanguage
import Automata.Proofs.GrammarPrinting
import Automata.Proofs.GrammarRoundTrip
import Automata.Proofs.Grammars
import Automata.Proofs.IndexedTables
import Automata.Proofs.Interning
import Automata.Proofs.Isomorphism
import Automata.Proofs.Labels
import Automata.Proofs.LayeredConversions
import Automata.Proofs.MergingLookups
import Automata.Proofs.MinimalSize
import Automata.Proofs.Minimization
import Automata.Proofs.MooreOutcomes
import Automata.Proofs.NameIndependence
import Automata.Proofs.NameRequests
import Automata.Proofs.Naming
import Automata.Proofs.NumberingOrder
import Automata.Proofs.Obtainable
import Automata.Proofs.OutputArguments
import Automata.Proofs.Outputs
import Automata.Proofs.PartitionEquality
import Automata.Proofs.Pieces
import Automata.Proofs.PrimedNames
import Automata.Proofs.Random
import Automata.Proofs.Reachability
import Automata.Proofs.ReachabilityLoop
import Automata.Proofs.ReachablePart
import Automata.Proofs.Refinement
import Automata.Proofs.RefinementLookups
import Automata.Proofs.RefinementRounds
import Automata.Proofs.Relations
import Automata.Proofs.RelationsAsSets
import Automata.Proofs.Renumbering
import Automata.Proofs.RepeatedNumbering
import Automata.Proofs.RightLinear
import Automata.Proofs.Runs
import Automata.Proofs.Search
import Automata.Proofs.SearchLayers
import Automata.Proofs.SearchOrder
import Automata.Proofs.ShortDifferences
import Automata.Proofs.StatementOrder
import Automata.Proofs.SubsetLookups
import Automata.Proofs.SubsetStates
import Automata.Proofs.SymbolSessions
import Automata.Proofs.TableIndependence
import Automata.Proofs.TabulatedLookups
import Automata.Proofs.TransitionMaps
import Automata.Proofs.UnreachableStates
import Automata.Proofs.Views
import Automata.Proofs.WordEnumeration
import Automata.Proofs.WordOrder
import Automata.Random
import Automata.Recognizer
import Automata.Refinement
import Automata.Relation
import Automata.Renumbering
import Automata.Search
import Automata.State
import Automata.Symbol
import Automata.Text.Blank
import Automata.Text.ControlSequence
import Automata.Text.Emoji
import Automata.Text.Grid
import Automata.Text.Hidden
import Automata.Text.Joining
import Automata.Text.Quoted
import Automata.Text.Ranges
import Automata.Text.Style
import Automata.Text.Width
import Automata.TransitionTable
import Automata.Words
