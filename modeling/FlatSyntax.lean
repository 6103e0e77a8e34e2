import FlatSyntax.Builder
import FlatSyntax.Document.Basic
import FlatSyntax.Document.Datum
import FlatSyntax.Document.Describe
import FlatSyntax.Document.Projection
import FlatSyntax.Document.Text
import FlatSyntax.Entries
import FlatSyntax.Fault
import FlatSyntax.Kind.Basic
import FlatSyntax.Kind.Set
import FlatSyntax.Number.Decimal
import FlatSyntax.Number.Double
import FlatSyntax.Number.Width
import FlatSyntax.RegExpFlags
import FlatSyntax.Schema.Catalogue
import FlatSyntax.Schema.Choices
import FlatSyntax.Schema.Definitions
import FlatSyntax.Schema.Expressions
import FlatSyntax.Schema.Layout
import FlatSyntax.Schema.Linkage
import FlatSyntax.Schema.Markup
import FlatSyntax.Schema.Notation
import FlatSyntax.Schema.Patterns
import FlatSyntax.Schema.Reach
import FlatSyntax.Schema.Slots
import FlatSyntax.Schema.Statements
import FlatSyntax.Schema.Tokens
import FlatSyntax.Schema.Transfer
import FlatSyntax.Schema.Unions
import FlatSyntax.Sequence.Measure
import FlatSyntax.Sequence.Notes
import FlatSyntax.Sequence.Reads
import FlatSyntax.Session.Basic
import FlatSyntax.Session.Heap
import FlatSyntax.Document.Path
import FlatSyntax.Session.Run
import FlatSyntax.Span
import FlatSyntax.Text.Cut
import FlatSyntax.Text.Index
import FlatSyntax.Text.Quoted
import FlatSyntax.Text.Utf8
import FlatSyntax.Value.Basic
import FlatSyntax.Value.Printer
import FlatSyntax.Visitor.Basic
import FlatSyntax.Visitor.PlainWalk
import FlatSyntax.Visitor.Plan
import FlatSyntax.Visitor.Trace
import FlatSyntax.Visitor.Walker
import FlatSyntax.Workspace.Basic
import FlatSyntax.Workspace.Visit
import FlatSyntax.Session.Operation
import FlatSyntax.Proofs.Heap
import FlatSyntax.Proofs.Sound
import FlatSyntax.Proofs.Reading
import FlatSyntax.Proofs.SessionReads
import FlatSyntax.Proofs.SessionProjection
import FlatSyntax.Proofs.SessionPath
import FlatSyntax.Proofs.Run
import FlatSyntax.Proofs.Operation
import FlatSyntax.Proofs.History
import FlatSyntax.Proofs.Identity
import FlatSyntax.Proofs.Needed
import FlatSyntax.Proofs.Pruning
import FlatSyntax.Proofs.Entries
import FlatSyntax.Proofs.Schema
import FlatSyntax.Proofs.DocumentReads
import FlatSyntax.Proofs.PlainWalk
import FlatSyntax.Proofs.Strings
import FlatSyntax.Proofs.Cutoff
import FlatSyntax.Proofs.SessionCutoff
import FlatSyntax.Proofs.Truncation
import FlatSyntax.Proofs.Brackets
import FlatSyntax.Proofs.DepthLimit
import FlatSyntax.Proofs.Index
import FlatSyntax.Proofs.Bytes
import FlatSyntax.Proofs.FaultSites
import FlatSyntax.Proofs.Footprint
import FlatSyntax.Proofs.InPlace
import FlatSyntax.Proofs.Builder
import FlatSyntax.Proofs.BuiltProgram
import FlatSyntax.Proofs.Notes
import FlatSyntax.Proofs.SequenceEdits
import FlatSyntax.Proofs.Saturation
import FlatSyntax.Proofs.BuiltStrings
import FlatSyntax.Proofs.SequenceReads
import FlatSyntax.Workspace.Client
import FlatSyntax.Proofs.Isolation
import FlatSyntax.Proofs.VisitorKeys
import FlatSyntax.Proofs.Reachability
import FlatSyntax.Proofs.BuilderMemory
import FlatSyntax.Proofs.Tidy
import FlatSyntax.Proofs.RunEffect
import FlatSyntax.Proofs.KeyNames
import FlatSyntax.Proofs.KindSet
import FlatSyntax.Proofs.Json
import FlatSyntax.Proofs.NumberText
import FlatSyntax.Proofs.ValueText
import FlatSyntax.Proofs.ElementAddresses
import FlatSyntax.Proofs.Filing
