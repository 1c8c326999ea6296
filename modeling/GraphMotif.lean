import GraphMotif.Graph.Degree
import GraphMotif.Graph.Find
import GraphMotif.Plan.Explain
import GraphMotif.Predicate.Condition
import GraphMotif.Predicate.Parse
import GraphMotif.Proofs.Graph.Bare
import GraphMotif.Proofs.Graph.Cleanup
import GraphMotif.Proofs.Graph.Degree
import GraphMotif.Proofs.Graph.Erasing
import GraphMotif.Proofs.Graph.Failures
import GraphMotif.Proofs.Graph.Filter
import GraphMotif.Proofs.Graph.FilterLaws
import GraphMotif.Proofs.Graph.Renaming
import GraphMotif.Proofs.Graph.Reorder
import GraphMotif.Proofs.Graph.Result
import GraphMotif.Proofs.Graph.Negation
import GraphMotif.Proofs.Graph.Transformations
import GraphMotif.Proofs.Pattern.Language
import GraphMotif.Proofs.Plan.Compile
import GraphMotif.Proofs.Plan.Evaluation
import GraphMotif.Proofs.Predicate.Composition
import GraphMotif.Proofs.Predicate.Evaluation
import GraphMotif.Proofs.Predicate.Rendering
import GraphMotif.Settings
import GraphMotif.Table.Order
import GraphMotif.Proofs.Resolution.Identity
import GraphMotif.Proofs.Plan.Shape
import GraphMotif.Proofs.Pattern.Reading
import GraphMotif.Proofs.Pattern.Positions
import GraphMotif.Proofs.Pattern.Fragments
import GraphMotif.Proofs.Plan.KeyOrder
import GraphMotif.Proofs.Plan.RowCount
import GraphMotif.Proofs.Predicate.Comparisons
import GraphMotif.Proofs.Predicate.Columns
import GraphMotif.Proofs.Number.ReadBack
import GraphMotif.Proofs.Predicate.Tokens
import GraphMotif.Proofs.Predicate.Ambiguity
import GraphMotif.Proofs.Predicate.Equality
import GraphMotif.Proofs.Graph.Construction
import GraphMotif.Proofs.Graph.FixedPoint
import GraphMotif.Proofs.Plan.Explain
import GraphMotif.Proofs.Predicate.Rows
