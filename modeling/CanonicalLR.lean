import CanonicalLR.Automaton.Basic
import CanonicalLR.Automaton.Canonical
import CanonicalLR.Datum
import CanonicalLR.Distinct
import CanonicalLR.Grammar.Analysis
import CanonicalLR.Grammar.Basic
import CanonicalLR.Grammar.Builder
import CanonicalLR.Grammar.Definition
import CanonicalLR.Grammar.Error
import CanonicalLR.Grammar.Form
import CanonicalLR.Grammar.Listing
import CanonicalLR.Item.Basic
import CanonicalLR.Item.Closure
import CanonicalLR.Item.Form
import CanonicalLR.Item.Set
import CanonicalLR.Key
import CanonicalLR.Lookup
import CanonicalLR.OrderedMap
import CanonicalLR.Parse.Machine
import CanonicalLR.Parse.Token
import CanonicalLR.Parse.Tree
import CanonicalLR.Position
import CanonicalLR.Production
import CanonicalLR.Report.Diagnostic
import CanonicalLR.Report.Generator
import CanonicalLR.Saturation
import CanonicalLR.Search
import CanonicalLR.SortedSet
import CanonicalLR.Symbol
import CanonicalLR.Table.Action
import CanonicalLR.Table.Basic
import CanonicalLR.Table.Compile
import CanonicalLR.Text.Printable
import CanonicalLR.Text.Quoted
import CanonicalLR.Text.Scalar
import CanonicalLR.Text.Template
import CanonicalLR.Text.Words
import CanonicalLR.Value
import CanonicalLR.Proofs.Search
import CanonicalLR.Proofs.Loop
import CanonicalLR.Proofs.Grammar.Derivation
import CanonicalLR.Proofs.Grammar.Production
import CanonicalLR.Proofs.Grammar.Analysis
import CanonicalLR.Proofs.Grammar.Reachability
import CanonicalLR.Proofs.Grammar.Loop
import CanonicalLR.Proofs.Grammar.Exactness
import CanonicalLR.Proofs.Grammar.Faults
import CanonicalLR.Proofs.Grammar.Reading
import CanonicalLR.Proofs.Grammar.Definition
import CanonicalLR.Proofs.Grammar.Builder
import CanonicalLR.Proofs.Grammar.Rebuilding
import CanonicalLR.Proofs.Grammar.Addition
import CanonicalLR.Proofs.Grammar.Recursion
import CanonicalLR.Proofs.Grammar.Translation
import CanonicalLR.Proofs.Grammar.Reordering
import CanonicalLR.Proofs.Grammar.Renaming
import CanonicalLR.Proofs.Item.Order
import CanonicalLR.Proofs.Item.Closure
import CanonicalLR.Proofs.Automaton.Canonical
import CanonicalLR.Proofs.Automaton.Construction
import CanonicalLR.Proofs.Item.Least
import CanonicalLR.Proofs.Item.Union
import CanonicalLR.Proofs.Automaton.Kernel
import CanonicalLR.Proofs.Automaton.Call
import CanonicalLR.Proofs.Automaton.Coverage
import CanonicalLR.Proofs.Automaton.Height
import CanonicalLR.Proofs.Automaton.Viable
import CanonicalLR.Proofs.Automaton.Continuation
import CanonicalLR.Proofs.Table.Resolution
import CanonicalLR.Proofs.Table.Cell
import CanonicalLR.Proofs.Table.Conflict
import CanonicalLR.Proofs.Table.Canonical
import CanonicalLR.Proofs.Automaton.Collection
import CanonicalLR.Proofs.Automaton.Numbering
import CanonicalLR.Proofs.Automaton.Translation
import CanonicalLR.Proofs.Automaton.Renaming
import CanonicalLR.Proofs.Table.Acceptance
import CanonicalLR.Proofs.Table.Views
import CanonicalLR.Proofs.Table.Knuth
import CanonicalLR.Proofs.Table.Settling
import CanonicalLR.Proofs.Table.Ascent
import CanonicalLR.Proofs.Table.Prediction
import CanonicalLR.Proofs.Table.Reordering
import CanonicalLR.Proofs.Table.Renaming
import CanonicalLR.Proofs.Parse.Tree
import CanonicalLR.Proofs.Parse.Moves
import CanonicalLR.Proofs.Parse.Run
import CanonicalLR.Proofs.Parse.Soundness
import CanonicalLR.Proofs.Parse.Conservation
import CanonicalLR.Proofs.Parse.Access
import CanonicalLR.Proofs.Parse.Unreduced
import CanonicalLR.Proofs.Parse.Exhaustion
import CanonicalLR.Proofs.Parse.Progress
import CanonicalLR.Proofs.Parse.Labels
import CanonicalLR.Proofs.Parse.Termination
import CanonicalLR.Proofs.Parse.Ascent
import CanonicalLR.Proofs.Parse.Prefix
import CanonicalLR.Proofs.Parse.Detection
import CanonicalLR.Proofs.Parse.Completeness
import CanonicalLR.Proofs.Parse.Reordering
import CanonicalLR.Proofs.Parse.Conditional
import CanonicalLR.Proofs.Parse.Nearest
import CanonicalLR.Proofs.Parse.Preference
import CanonicalLR.Proofs.Report.Warnings
