import ClassAtlas.Analysis.Batch
import ClassAtlas.Analysis.Closure
import ClassAtlas.Analysis.Failure
import ClassAtlas.Assembler.Emit
import ClassAtlas.Assembler.PoolWriter
import ClassAtlas.Assembler.Spec
import ClassAtlas.Binary.DecodeError
import ClassAtlas.Binary.Reader
import ClassAtlas.Binary.Session
import ClassAtlas.Binary.Word
import ClassAtlas.Bytecode.Instruction
import ClassAtlas.ClassFile.Annotations
import ClassAtlas.ClassFile.Basic
import ClassAtlas.ClassFile.Decode
import ClassAtlas.Config.Basic
import ClassAtlas.Config.Document
import ClassAtlas.Config.Layout
import ClassAtlas.Config.Summary
import ClassAtlas.Config.Validation
import ClassAtlas.Count
import ClassAtlas.Descriptor.Basic
import ClassAtlas.Descriptor.Cache
import ClassAtlas.Descriptor.Cursor
import ClassAtlas.Descriptor.Fault
import ClassAtlas.Descriptor.Parser
import ClassAtlas.EdgeKind
import ClassAtlas.Extraction.Extractor
import ClassAtlas.Extraction.Operand
import ClassAtlas.Extraction.References
import ClassAtlas.Extraction.Tally
import ClassAtlas.Graph.Basic
import ClassAtlas.Graph.Builder
import ClassAtlas.Graph.Cycles
import ClassAtlas.Graph.Impact
import ClassAtlas.Graph.Packages
import ClassAtlas.Graph.Topological
import ClassAtlas.Graph.Walk
import ClassAtlas.Journal
import ClassAtlas.Name
import ClassAtlas.Order.SortedMap
import ClassAtlas.Pool.Basic
import ClassAtlas.Pool.Decode
import ClassAtlas.Pool.Encode
import ClassAtlas.Signature.Basic
import ClassAtlas.Signature.Parser
import ClassAtlas.Sum
import ClassAtlas.Text.Blank
import ClassAtlas.Text.Decimal
import ClassAtlas.Text.Hex
import ClassAtlas.Text.Quoted
import ClassAtlas.Text.Shown
import ClassAtlas.Text.Utf8
import ClassAtlas.Yaml.Chars
import ClassAtlas.Yaml.Meaning
import ClassAtlas.Yaml.Node
import ClassAtlas.Yaml.Place
import ClassAtlas.Yaml.PropertyReader
import ClassAtlas.Yaml.Reader
import ClassAtlas.Yaml.ScalarReader
import ClassAtlas.Yaml.Scan
import ClassAtlas.Yaml.Token
import ClassAtlas.Yaml.Writer
import ClassAtlas.Proofs.Analysis.WholeProgram
import ClassAtlas.Proofs.ClassFile.Truncation
import ClassAtlas.Proofs.Extraction.Faithful
import ClassAtlas.Proofs.Extraction.Policy
import ClassAtlas.Proofs.Graph.Consistency
import ClassAtlas.Proofs.Text.ModifiedUtf8
import ClassAtlas.Proofs.Binary.Inversion
import ClassAtlas.Proofs.Pool.Exactness
import ClassAtlas.Proofs.Signature.Grammar
import ClassAtlas.Proofs.Signature.Unambiguity
import ClassAtlas.Proofs.Signature.Limits
import ClassAtlas.Proofs.Signature.Acceptance
import ClassAtlas.Proofs.Signature.Parameters
import ClassAtlas.Proofs.Signature.Declarations
import ClassAtlas.Proofs.Bytecode.Encoding
import ClassAtlas.Proofs.Bytecode.Exactness
import ClassAtlas.Proofs.Config.RoundTrip
import ClassAtlas.Proofs.Analysis.Missing
import ClassAtlas.Proofs.Extraction.Richer
import ClassAtlas.Proofs.Analysis.Monotonicity
import ClassAtlas.Proofs.Graph.Neighbours
import ClassAtlas.Proofs.Text.Exactness
import ClassAtlas.Proofs.Graph.DepthFirst
import ClassAtlas.Proofs.Graph.Readiness
import ClassAtlas.Proofs.Graph.DependenciesFirst
import ClassAtlas.Proofs.Graph.Components
import ClassAtlas.Proofs.Graph.CycleReport
import ClassAtlas.Proofs.Graph.Converse
import ClassAtlas.Proofs.Graph.Distance
import ClassAtlas.Proofs.Graph.BreadthFirst
import ClassAtlas.Proofs.Graph.Impact
import ClassAtlas.Proofs.Graph.Quotient
import ClassAtlas.Proofs.Analysis.Accounting
import ClassAtlas.Proofs.Descriptor.Recall
import ClassAtlas.Proofs.Binary.Skipped
import ClassAtlas.Proofs.ClassFile.Survey
import ClassAtlas.Proofs.ClassFile.Uninterpreted
import ClassAtlas.Proofs.Extraction.EntryNames
import ClassAtlas.Proofs.Text.InternalForm
import ClassAtlas.Proofs.Graph.Lookups
import ClassAtlas.Proofs.Text.Renormalization
import ClassAtlas.Proofs.ClassFile.AnnotationExactness
import ClassAtlas.Proofs.Extraction.Offsets
import ClassAtlas.Proofs.Signature.Boundaries
import ClassAtlas.Proofs.Binary.NestedReaders
import ClassAtlas.Proofs.Signature.Spelling
import ClassAtlas.Proofs.Extraction.Reduction
import ClassAtlas.Proofs.ClassFile.Sizes
import ClassAtlas.Proofs.Extraction.TallyLimits
