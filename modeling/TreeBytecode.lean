import TreeBytecode.Numbering
import TreeBytecode.Text.Quoted
import TreeBytecode.Tree.Kind
import TreeBytecode.Tree.Modifier
import TreeBytecode.Tree.TypeRef
import TreeBytecode.Tree.Code
import TreeBytecode.Tree.Declaration
import TreeBytecode.Wire.Tag
import TreeBytecode.Wire.Node
import TreeBytecode.Wire.Version
import TreeBytecode.Wire.Failure
import TreeBytecode.Wire.Word
import TreeBytecode.Wire.Step
import TreeBytecode.StringTable
import TreeBytecode.Wire.Field
import TreeBytecode.Wire.Encoder
import TreeBytecode.Stream.Demand
import TreeBytecode.Stream.Source
import TreeBytecode.Stream.Codec
import TreeBytecode.Stream.Zstandard
import TreeBytecode.Wire.Ending
import TreeBytecode.Wire.Plan
import TreeBytecode.Payload.Slot
import TreeBytecode.Payload.Code
import TreeBytecode.Payload.Declaration
import TreeBytecode.Payload.Node
import TreeBytecode.Text.Utf8
import TreeBytecode.StringTable.SideFile
import TreeBytecode.Decoder
import TreeBytecode.Registry
import TreeBytecode.Artifact
import TreeBytecode.Outline.Node
import TreeBytecode.Stream.Compression
import TreeBytecode.FileSystem
import TreeBytecode.Package.Options
import TreeBytecode.Package.FileName
import TreeBytecode.Package
import TreeBytecode.Proofs.Nesting
import TreeBytecode.Proofs.Persistence
import TreeBytecode.Proofs.Growth
import TreeBytecode.Proofs.Spelling
import TreeBytecode.Proofs.Grammar
import TreeBytecode.Proofs.Mirror
import TreeBytecode.Proofs.Slots
import TreeBytecode.Proofs.Payload
import TreeBytecode.Proofs.Canonical
import TreeBytecode.Proofs.RoundTrip
import TreeBytecode.Proofs.Streaming
import TreeBytecode.Proofs.Truncation
import TreeBytecode.Proofs.Acceptance
import TreeBytecode.Proofs.Locality
import TreeBytecode.Proofs.Places
import TreeBytecode.Proofs.Shape
import TreeBytecode.Proofs.Agreement
import TreeBytecode.Proofs.DepthLimit
import TreeBytecode.Proofs.Migration
import TreeBytecode.Proofs.Unpacking
import TreeBytecode.Proofs.Demands
import TreeBytecode.Proofs.PackedReading
import TreeBytecode.Proofs.SideFile
import TreeBytecode.Proofs.Files
import TreeBytecode.Proofs.PackageRoundTrip
import TreeBytecode.Proofs.PathText
import TreeBytecode.Proofs.Levels
import TreeBytecode.Proofs.Regularity
import TreeBytecode.Proofs.Endings
import TreeBytecode.Proofs.FailurePlace
import TreeBytecode.Proofs.Sameness
import TreeBytecode.Proofs.Guarantees
import TreeBytecode.Proofs.Artifacts
import TreeBytecode.Proofs.Interning
import TreeBytecode.Proofs.FullOutputs
import TreeBytecode.Proofs.FirstTag
import TreeBytecode.Proofs.Markers
import TreeBytecode.Proofs.Footprint
import TreeBytecode.Proofs.NewStrings
import TreeBytecode.Proofs.Extent
import TreeBytecode.Proofs.Loops
import TreeBytecode.Proofs.Faults
import TreeBytecode.Proofs.SideFileCuts
import TreeBytecode.Proofs.Handles
import TreeBytecode.Proofs.Lifecycle
import TreeBytecode.Proofs.LayoutsApart
import TreeBytecode.Proofs.ByteOrder
import TreeBytecode.Proofs.Trees
import TreeBytecode.Proofs.Listing
import TreeBytecode.Proofs.TextLines
import TreeBytecode.Proofs.StringListing
import TreeBytecode.Proofs.OutlineSameness
import TreeBytecode.Proofs.Parts
import TreeBytecode.Proofs.Captions
import TreeBytecode.Proofs.OutlineLines
import TreeBytecode.Proofs.Decoration
import TreeBytecode.Proofs.Tracking
import TreeBytecode.Proofs.Calls
import TreeBytecode.Proofs.Primitives
import TreeBytecode.Proofs.Presence
