import KnowledgeCompiler.Fault
import KnowledgeCompiler.Sorting
import KnowledgeCompiler.SortedSet
import KnowledgeCompiler.Formula
import KnowledgeCompiler.Renaming
import KnowledgeCompiler.Text.Decimal
import KnowledgeCompiler.Formula.Dimacs
import KnowledgeCompiler.Action
import KnowledgeCompiler.Leaf.TwoCnf
import KnowledgeCompiler.Leaf.Horn
import KnowledgeCompiler.Circuit.Basic
import KnowledgeCompiler.Circuit.Copy
import KnowledgeCompiler.Circuit.Query
import KnowledgeCompiler.Circuit.Nnf
import KnowledgeCompiler.Circuit.Dot
import KnowledgeCompiler.Solver
import KnowledgeCompiler.Branching
import KnowledgeCompiler.CutSet
import KnowledgeCompiler.ComponentCache
import KnowledgeCompiler.Compilation
import KnowledgeCompiler.Proofs.Compilation.Materialization
import KnowledgeCompiler.Proofs.Compilation.ModelIndependence
import KnowledgeCompiler.Proofs.Circuit.Building
import KnowledgeCompiler.Proofs.Circuit.Copying
import KnowledgeCompiler.Proofs.ComponentCache
import KnowledgeCompiler.Proofs.ComponentKeys
import KnowledgeCompiler.Proofs.CutSet
import KnowledgeCompiler.Proofs.Circuit.Order
import KnowledgeCompiler.Proofs.Circuit.Redirection
import KnowledgeCompiler.Proofs.Circuit.Refreshing
import KnowledgeCompiler.Proofs.Circuit.Smoothing
import KnowledgeCompiler.Proofs.Compilation.Caching
import KnowledgeCompiler.Proofs.Compilation.Meaning
import KnowledgeCompiler.Proofs.Circuit.Answer
import KnowledgeCompiler.Proofs.Circuit.Cardinality
import KnowledgeCompiler.Proofs.Circuit.CopyGrowth
import KnowledgeCompiler.Proofs.Circuit.Counting
import KnowledgeCompiler.Proofs.Circuit.Reading
import KnowledgeCompiler.Proofs.Circuit.Satisfiability
import KnowledgeCompiler.Proofs.Circuit.Smoothness
import KnowledgeCompiler.Proofs.Compilation.Correctness
import KnowledgeCompiler.Proofs.Circuit.Closure
import KnowledgeCompiler.Proofs.Circuit.Edges
import KnowledgeCompiler.Proofs.Circuit.Exactness
import KnowledgeCompiler.Proofs.Compilation.Counting
import KnowledgeCompiler.Proofs.Circuit.Upkeep
import KnowledgeCompiler.Proofs.Text.Numeral
import KnowledgeCompiler.Proofs.Nnf.Transcript
import KnowledgeCompiler.Proofs.Nnf.Grammar
import KnowledgeCompiler.Proofs.Nnf.Reader
import KnowledgeCompiler.Proofs.Text.Layout
import KnowledgeCompiler.Proofs.Text.Utf8
import KnowledgeCompiler.Proofs.Nnf.Acceptance
import KnowledgeCompiler.Proofs.Circuit.Stages
import KnowledgeCompiler.Proofs.Nnf.Writer
import KnowledgeCompiler.Proofs.Circuit.Listing
import KnowledgeCompiler.Proofs.Circuit.Relocation
import KnowledgeCompiler.Proofs.Circuit.RelocatedQueries
import KnowledgeCompiler.Proofs.Nnf.Written
import KnowledgeCompiler.Proofs.Nnf.RoundTrip
import KnowledgeCompiler.Proofs.Circuit.SmoothDeterminism
import KnowledgeCompiler.Proofs.Circuit.Completeness
import KnowledgeCompiler.Proofs.Nnf.Faults
import KnowledgeCompiler.Proofs.Circuit.Assembly
import KnowledgeCompiler.Proofs.Circuit.Expansion
import KnowledgeCompiler.Proofs.Circuit.Remnants
import KnowledgeCompiler.Proofs.Circuit.Mirroring
import KnowledgeCompiler.Proofs.Circuit.CopyRuns
import KnowledgeCompiler.Proofs.Circuit.RenamedCopies
import KnowledgeCompiler.Proofs.Circuit.ExpandedLeaves
import KnowledgeCompiler.Proofs.Circuit.Sharing
import KnowledgeCompiler.Proofs.Circuit.Economy
import KnowledgeCompiler.Proofs.Compilation.SearchCounts
import KnowledgeCompiler.Proofs.Leaf.Decision
import KnowledgeCompiler.Proofs.Propagation.Fixpoint
import KnowledgeCompiler.Proofs.Residual.LiveView
import KnowledgeCompiler.Proofs.Probing.Saturation
import KnowledgeCompiler.Proofs.Solver.Backbone
import KnowledgeCompiler.Proofs.Connectivity
import KnowledgeCompiler.Proofs.Hypergraph.Bisection
import KnowledgeCompiler.Proofs.Separation
import KnowledgeCompiler.Proofs.Compilation.Tracking
