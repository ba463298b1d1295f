import HornSaturation.Clause.Basic
import HornSaturation.Clause.Normalization
import HornSaturation.Clause.Normalized
import HornSaturation.Clause.OfFormula
import HornSaturation.Clause.Problem
import HornSaturation.Clause.Usage
import HornSaturation.CommandLine.Files
import HornSaturation.CommandLine.Options
import HornSaturation.CommandLine.Response
import HornSaturation.Diagnostics
import HornSaturation.Inference.Candidate
import HornSaturation.Inference.Classification
import HornSaturation.Inference.Projection
import HornSaturation.Inference.Redundancy
import HornSaturation.Inference.Resolution
import HornSaturation.Inference.Saturation
import HornSaturation.Main
import HornSaturation.Oracle.Basic
import HornSaturation.Oracle.Search
import HornSaturation.Oracle.Widening
import HornSaturation.Oracle.Window
import HornSaturation.Oracle.Workspace
import HornSaturation.Reader.Commands
import HornSaturation.Reader.Cursor
import HornSaturation.Reader.Terms
import HornSaturation.Reader.Tokens
import HornSaturation.Refutation.Basic
import HornSaturation.Refutation.Build
import HornSaturation.Refutation.Check
import HornSaturation.Refutation.Provenance
import HornSaturation.Run.Basic
import HornSaturation.Run.OfProblem
import HornSaturation.Run.Solve
import HornSaturation.Run.Step
import HornSaturation.Solution.Basic
import HornSaturation.Solution.Check
import HornSaturation.Term.Arithmetic
import HornSaturation.Term.Basic
import HornSaturation.Term.Connectives
import HornSaturation.Term.Equality
import HornSaturation.Term.Eval
import HornSaturation.Term.Folding
import HornSaturation.Term.Printer
import HornSaturation.Term.Variables
import HornSaturation.Text.Alphanumeric
import HornSaturation.Text.Blank
import HornSaturation.Text.Decimal
import HornSaturation.Text.Json
import HornSaturation.Unit.Basic
import HornSaturation.Unit.Instance
import HornSaturation.Unit.Store
import HornSaturation.Vocabulary.Relation
import HornSaturation.Vocabulary.Symbols
import HornSaturation.Vocabulary.Theory
import HornSaturation.Proofs.Clause.Admission
import HornSaturation.Proofs.Clause.Aliasing
import HornSaturation.Proofs.Clause.Extraction
import HornSaturation.Proofs.Clause.Interpreted
import HornSaturation.Proofs.Clause.Nesting
import HornSaturation.Proofs.Clause.Normalization
import HornSaturation.Proofs.Clause.Regular
import HornSaturation.Proofs.Clause.Renaming
import HornSaturation.Proofs.Clause.Stated
import HornSaturation.Proofs.Data.Ensures
import HornSaturation.Proofs.Data.Lists
import HornSaturation.Proofs.Data.Results
import HornSaturation.Proofs.Inference.Electrons
import HornSaturation.Proofs.Inference.Enumeration
import HornSaturation.Proofs.Inference.Exactness
import HornSaturation.Proofs.Inference.Exhaustiveness
import HornSaturation.Proofs.Inference.Nesting
import HornSaturation.Proofs.Inference.Projection
import HornSaturation.Proofs.Inference.Recollection
import HornSaturation.Proofs.Inference.Redundancy
import HornSaturation.Proofs.Inference.Resolution
import HornSaturation.Proofs.Inference.Saturation
import HornSaturation.Proofs.Inference.Totality
import HornSaturation.Proofs.Offsets.Boundaries
import HornSaturation.Proofs.Offsets.Commands
import HornSaturation.Proofs.Offsets.Mirroring
import HornSaturation.Proofs.Offsets.Moves
import HornSaturation.Proofs.Offsets.Progress
import HornSaturation.Proofs.Offsets.Reader
import HornSaturation.Proofs.Offsets.Terms
import HornSaturation.Proofs.Offsets.Tokens
import HornSaturation.Proofs.Oracle.Answers
import HornSaturation.Proofs.Oracle.Models
import HornSaturation.Proofs.Oracle.Neighbours
import HornSaturation.Proofs.Oracle.Questions
import HornSaturation.Proofs.Oracle.Refutations
import HornSaturation.Proofs.Oracle.Scopes
import HornSaturation.Proofs.Oracle.Widening
import HornSaturation.Proofs.Reader.Agreement
import HornSaturation.Proofs.Reader.BoundNames
import HornSaturation.Proofs.Reader.Commands
import HornSaturation.Proofs.Reader.Extent
import HornSaturation.Proofs.Reader.Forms
import HornSaturation.Proofs.Reader.FreeNames
import HornSaturation.Proofs.Reader.Meaning
import HornSaturation.Proofs.Reader.Phases
import HornSaturation.Proofs.Reader.Printing
import HornSaturation.Proofs.Reader.RenamedBinders
import HornSaturation.Proofs.Reader.Scopes
import HornSaturation.Proofs.Reader.Skipping
import HornSaturation.Proofs.Reader.Steps
import HornSaturation.Proofs.Reader.Syntax
import HornSaturation.Proofs.Reader.Terms
import HornSaturation.Proofs.Refutation.Build
import HornSaturation.Proofs.Refutation.Check
import HornSaturation.Proofs.Refutation.Derivations
import HornSaturation.Proofs.Refutation.Drafts
import HornSaturation.Proofs.Refutation.Existence
import HornSaturation.Proofs.Refutation.Explanations
import HornSaturation.Proofs.Refutation.Failures
import HornSaturation.Proofs.Refutation.Nesting
import HornSaturation.Proofs.Refutation.Order
import HornSaturation.Proofs.Refutation.Questions
import HornSaturation.Proofs.Refutation.Scopes
import HornSaturation.Proofs.Refutation.Soundness
import HornSaturation.Proofs.Refutation.Steps
import HornSaturation.Proofs.Refutation.TopologicalOrder
import HornSaturation.Proofs.Run.Bookkeeping
import HornSaturation.Proofs.Run.Closure
import HornSaturation.Proofs.Run.Consequences
import HornSaturation.Proofs.Run.Coverage
import HornSaturation.Proofs.Run.Failures
import HornSaturation.Proofs.Run.Inferences
import HornSaturation.Proofs.Run.Journal
import HornSaturation.Proofs.Run.Limits
import HornSaturation.Proofs.Run.Nesting
import HornSaturation.Proofs.Run.Offers
import HornSaturation.Proofs.Run.Saturation
import HornSaturation.Proofs.Run.Scopes
import HornSaturation.Proofs.Run.Search
import HornSaturation.Proofs.Run.Settling
import HornSaturation.Proofs.Run.Solving
import HornSaturation.Proofs.Run.Steps
import HornSaturation.Proofs.Run.Traces
import HornSaturation.Proofs.Run.Verification
import HornSaturation.Proofs.Solution.Agreement
import HornSaturation.Proofs.Solution.Applications
import HornSaturation.Proofs.Solution.Check
import HornSaturation.Proofs.Solution.Denotations
import HornSaturation.Proofs.Solution.Interpretations
import HornSaturation.Proofs.Solution.Nesting
import HornSaturation.Proofs.Solution.Normalized
import HornSaturation.Proofs.Solution.Soundness
import HornSaturation.Proofs.Solution.Stated
import HornSaturation.Proofs.Term.ArithmeticFolding
import HornSaturation.Proofs.Term.ConnectiveFolding
import HornSaturation.Proofs.Term.Definedness
import HornSaturation.Proofs.Term.Evaluation
import HornSaturation.Proofs.Term.ExactArithmetic
import HornSaturation.Proofs.Term.Folding
import HornSaturation.Proofs.Term.FoldingDepth
import HornSaturation.Proofs.Term.FoldingSorts
import HornSaturation.Proofs.Term.FoldingTermination
import HornSaturation.Proofs.Term.FoldingVariables
import HornSaturation.Proofs.Term.Formulas
import HornSaturation.Proofs.Term.Gathering
import HornSaturation.Proofs.Term.Mentions
import HornSaturation.Proofs.Term.Renaming
import HornSaturation.Proofs.Term.Sorting
import HornSaturation.Proofs.Term.Structure
import HornSaturation.Proofs.Term.Substitution
import HornSaturation.Proofs.Term.Truth
import HornSaturation.Proofs.Term.Valuation
import HornSaturation.Proofs.Term.Verdicts
import HornSaturation.Proofs.Unit.Arguments
import HornSaturation.Proofs.Unit.Canonical
import HornSaturation.Proofs.Unit.Coherence
import HornSaturation.Proofs.Unit.Consistency
import HornSaturation.Proofs.Unit.Forms
import HornSaturation.Proofs.Unit.Instances
import HornSaturation.Proofs.Unit.Store
import HornSaturation.Proofs.Vocabulary.Names
import HornSaturation.Proofs.Vocabulary.Recovery
