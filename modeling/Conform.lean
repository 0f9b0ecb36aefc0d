import Conform.Builtin
import Conform.CommandLine.Documents
import Conform.CommandLine.Options
import Conform.CommandLine.Run
import Conform.Decoded
import Conform.Decoder
import Conform.Failure
import Conform.Fields
import Conform.Filter
import Conform.Filter.Program
import Conform.Filter.Reader
import Conform.Filter.Value
import Conform.Glob
import Conform.Inspect
import Conform.Instant
import Conform.Instant.Text
import Conform.Json
import Conform.Json.Double
import Conform.Json.Printer
import Conform.Json.Reader
import Conform.Main
import Conform.Pattern
import Conform.Pattern.Reader
import Conform.Position
import Conform.Proofs.Accumulation
import Conform.Proofs.AdHoc
import Conform.Proofs.Advance
import Conform.Proofs.Along
import Conform.Proofs.Announcement
import Conform.Proofs.AttrsFlag
import Conform.Proofs.AttrsType
import Conform.Proofs.Batch
import Conform.Proofs.Book
import Conform.Proofs.ClassView
import Conform.Proofs.Conformance
import Conform.Proofs.Decoded
import Conform.Proofs.Decoding
import Conform.Proofs.Delivery
import Conform.Proofs.Dependencies
import Conform.Proofs.Entries
import Conform.Proofs.Expansion
import Conform.Proofs.Fields
import Conform.Proofs.Findings
import Conform.Proofs.FirstDefect
import Conform.Proofs.FixedPoint
import Conform.Proofs.Inlining
import Conform.Proofs.Instant.Calendar
import Conform.Proofs.Instant.ReadBack
import Conform.Proofs.Instant.Text
import Conform.Proofs.JsonEquality
import Conform.Proofs.KeyOrder
import Conform.Proofs.Kinds
import Conform.Proofs.LastDeclaration
import Conform.Proofs.Layered
import Conform.Proofs.Leaf
import Conform.Proofs.Listing
import Conform.Proofs.Loading
import Conform.Proofs.Membership
import Conform.Proofs.Mentions
import Conform.Proofs.Normalize
import Conform.Proofs.Order
import Conform.Proofs.Pairing
import Conform.Proofs.Reached
import Conform.Proofs.Record
import Conform.Proofs.Reference
import Conform.Proofs.Renaming
import Conform.Proofs.Repeats
import Conform.Proofs.RoundTrip
import Conform.Proofs.Schematic
import Conform.Proofs.Selection
import Conform.Proofs.Setup
import Conform.Proofs.Shape.Alike
import Conform.Proofs.Shape.Apart
import Conform.Proofs.Shape.Composed
import Conform.Proofs.Shape.Composition
import Conform.Proofs.Shape.Construction
import Conform.Proofs.Shape.Dropped
import Conform.Proofs.Shape.Encode
import Conform.Proofs.Shape.Grouping
import Conform.Proofs.Shape.Heeding
import Conform.Proofs.Shape.Merge
import Conform.Proofs.Shape.Parts
import Conform.Proofs.Shape.Placement
import Conform.Proofs.Shape.Plain
import Conform.Proofs.Shape.Record
import Conform.Proofs.Shape.Repeated
import Conform.Proofs.Shape.Structural
import Conform.Proofs.Shape.Traversal
import Conform.Proofs.Shape.Truthful
import Conform.Proofs.Shape.Validate
import Conform.Proofs.Sound
import Conform.Proofs.Stripped
import Conform.Proofs.Transparency
import Conform.Proofs.TypeTree
import Conform.Proofs.Wire.Grammar
import Conform.Proofs.Wire.Meaning
import Conform.Record
import Conform.Registry
import Conform.Schema
import Conform.Schema.Document
import Conform.Schema.Elaborate
import Conform.SetupError
import Conform.Shape
import Conform.Shape.Validate
import Conform.Storage
import Conform.Storage.Node
import Conform.Storage.Path
import Conform.Target
import Conform.Text
import Conform.Wire
import Conform.Wire.Reading
