import JvmArchive.Access
import JvmArchive.Archive.Entry
import JvmArchive.Archive.Error
import JvmArchive.Archive.Manifest
import JvmArchive.Archive.Zip.Inflate
import JvmArchive.Archive.Zip.Read
import JvmArchive.Archive.Zip.Write
import JvmArchive.ClassFile.Cursor
import JvmArchive.ClassFile.Decode.Attribute
import JvmArchive.ClassFile.Decode.Class
import JvmArchive.ClassFile.Decode.Code
import JvmArchive.ClassFile.Decode.Instruction
import JvmArchive.ClassFile.Decode.Member
import JvmArchive.ClassFile.Decode.StackMap
import JvmArchive.ClassFile.Encode.Attribute
import JvmArchive.ClassFile.Encode.Class
import JvmArchive.ClassFile.Encode.Code
import JvmArchive.ClassFile.Encode.Frames
import JvmArchive.ClassFile.Encode.Instruction
import JvmArchive.ClassFile.Encode.Layout
import JvmArchive.ClassFile.Encode.StackMap
import JvmArchive.ClassFile.EntryFrame
import JvmArchive.ClassFile.Error
import JvmArchive.ClassFile.Node
import JvmArchive.ClassFile.Pool.Basic
import JvmArchive.ClassFile.Pool.Builder
import JvmArchive.ClassFile.Pool.Resolve
import JvmArchive.Code.CodeEditor
import JvmArchive.Code.CodeList
import JvmArchive.Code.Constant
import JvmArchive.Code.Instruction
import JvmArchive.Code.Listing
import JvmArchive.Descriptor.Basic
import JvmArchive.Descriptor.Parts
import JvmArchive.Descriptor.Source
import JvmArchive.Flow.Analysis
import JvmArchive.Flow.Execute
import JvmArchive.Flow.Merge
import JvmArchive.Graph.Basic
import JvmArchive.Graph.Edit
import JvmArchive.Graph.Entry
import JvmArchive.Graph.Hierarchy
import JvmArchive.Graph.Lookup
import JvmArchive.Graph.Resolve
import JvmArchive.Jar.Basic
import JvmArchive.Jar.Load
import JvmArchive.Jar.Rename
import JvmArchive.Jar.Save
import JvmArchive.Log
import JvmArchive.Mapping.Error
import JvmArchive.Mapping.Format
import JvmArchive.Mapping.Generate
import JvmArchive.Mapping.Names
import JvmArchive.Mapping.ProGuard
import JvmArchive.Mapping.Srg
import JvmArchive.Mapping.Store
import JvmArchive.Mapping.Strategy
import JvmArchive.Opcode
import JvmArchive.Proofs.Archive.Attributes
import JvmArchive.Proofs.Archive.LongNames
import JvmArchive.Proofs.Archive.Manifest
import JvmArchive.Proofs.ClassFile.Annotations
import JvmArchive.Proofs.ClassFile.Attributes
import JvmArchive.Proofs.ClassFile.ClassAttributes
import JvmArchive.Proofs.ClassFile.Classes
import JvmArchive.Proofs.ClassFile.Code.Advances
import JvmArchive.Proofs.ClassFile.Code.Allocations
import JvmArchive.Proofs.ClassFile.Code.Closed
import JvmArchive.Proofs.ClassFile.Code.Computed
import JvmArchive.Proofs.ClassFile.Code.Frames
import JvmArchive.Proofs.ClassFile.Code.Framing
import JvmArchive.Proofs.ClassFile.Code.Instructions
import JvmArchive.Proofs.ClassFile.Code.Labels
import JvmArchive.Proofs.ClassFile.Code.Layout
import JvmArchive.Proofs.ClassFile.Code.Lines
import JvmArchive.Proofs.ClassFile.Code.Locals
import JvmArchive.Proofs.ClassFile.Code.Offsets
import JvmArchive.Proofs.ClassFile.Code.Opcodes
import JvmArchive.Proofs.ClassFile.Code.Passes
import JvmArchive.Proofs.ClassFile.Code.Placed
import JvmArchive.Proofs.ClassFile.Code.Places
import JvmArchive.Proofs.ClassFile.Code.Prepared
import JvmArchive.Proofs.ClassFile.Code.Preserved
import JvmArchive.Proofs.ClassFile.Code.Referenced
import JvmArchive.Proofs.ClassFile.Code.Resolved
import JvmArchive.Proofs.ClassFile.Code.RoundTrip
import JvmArchive.Proofs.ClassFile.Code.StackMaps
import JvmArchive.Proofs.ClassFile.Code.Stream
import JvmArchive.Proofs.ClassFile.Code.Switches
import JvmArchive.Proofs.ClassFile.Counts
import JvmArchive.Proofs.ClassFile.Fields
import JvmArchive.Proofs.ClassFile.Files
import JvmArchive.Proofs.ClassFile.Methods
import JvmArchive.Proofs.ClassFile.Pieces
import JvmArchive.Proofs.ClassFile.Pool.Answers
import JvmArchive.Proofs.ClassFile.Pool.Constants
import JvmArchive.Proofs.ClassFile.Pool.Entries
import JvmArchive.Proofs.ClassFile.Pool.Growth
import JvmArchive.Proofs.ClassFile.Pool.Requests
import JvmArchive.Proofs.ClassFile.Pool.Sources
import JvmArchive.Proofs.ClassFile.Pool.Writers
import JvmArchive.Proofs.ClassFile.Reads
import JvmArchive.Proofs.ClassFile.Refusals
import JvmArchive.Proofs.ClassFile.Structure
import JvmArchive.Proofs.Code.LabelIndex
import JvmArchive.Proofs.Code.Numbering
import JvmArchive.Proofs.Descriptor.Names
import JvmArchive.Proofs.Descriptor.Parts
import JvmArchive.Proofs.Descriptor.Renaming
import JvmArchive.Proofs.Descriptor.Source
import JvmArchive.Proofs.Descriptor.Types
import JvmArchive.Proofs.Flow.Absorption
import JvmArchive.Proofs.Flow.Accesses
import JvmArchive.Proofs.Flow.Allocations
import JvmArchive.Proofs.Flow.Bodies
import JvmArchive.Proofs.Flow.Executions
import JvmArchive.Proofs.Flow.Faults
import JvmArchive.Proofs.Flow.FixedPoint
import JvmArchive.Proofs.Flow.Oscillation
import JvmArchive.Proofs.Flow.Settling
import JvmArchive.Proofs.Flow.Sites
import JvmArchive.Proofs.Flow.Steps
import JvmArchive.Proofs.Flow.Termination
import JvmArchive.Proofs.Flow.Trails
import JvmArchive.Proofs.Flow.Weights
import JvmArchive.Proofs.Graph.Ancestors
import JvmArchive.Proofs.Graph.CommonSuper
import JvmArchive.Proofs.Graph.Declarations
import JvmArchive.Proofs.Graph.FieldSearch
import JvmArchive.Proofs.Graph.Linked
import JvmArchive.Proofs.Graph.Links
import JvmArchive.Proofs.Graph.NameLinks
import JvmArchive.Proofs.Graph.Relinking
import JvmArchive.Proofs.Graph.Repairs
import JvmArchive.Proofs.Graph.Superclasses
import JvmArchive.Proofs.Jar.Jobs
import JvmArchive.Proofs.Jar.Reload
import JvmArchive.Proofs.Jar.Sorting
import JvmArchive.Proofs.Mapping.Chains
import JvmArchive.Proofs.Mapping.ClassNames
import JvmArchive.Proofs.Mapping.ClassOrder
import JvmArchive.Proofs.Mapping.Consistency
import JvmArchive.Proofs.Mapping.Described
import JvmArchive.Proofs.Mapping.Drawn
import JvmArchive.Proofs.Mapping.Exchange
import JvmArchive.Proofs.Mapping.Fields
import JvmArchive.Proofs.Mapping.InnerNames
import JvmArchive.Proofs.Mapping.Insertions
import JvmArchive.Proofs.Mapping.Inverse
import JvmArchive.Proofs.Mapping.Involution
import JvmArchive.Proofs.Mapping.LeadBack
import JvmArchive.Proofs.Mapping.Lines
import JvmArchive.Proofs.Mapping.Listed
import JvmArchive.Proofs.Mapping.NewNames
import JvmArchive.Proofs.Mapping.OverrideRows
import JvmArchive.Proofs.Mapping.Reread
import JvmArchive.Proofs.Mapping.RowTables
import JvmArchive.Proofs.Mapping.Rows
import JvmArchive.Proofs.Mapping.Srg.Flat
import JvmArchive.Proofs.Mapping.Srg.Lines
import JvmArchive.Proofs.Mapping.Srg.Reread
import JvmArchive.Proofs.Mapping.Steps
import JvmArchive.Proofs.Mapping.Words
import JvmArchive.Proofs.Rename.Classes
import JvmArchive.Proofs.Rename.FieldNames
import JvmArchive.Proofs.Rename.Fields
import JvmArchive.Proofs.Rename.Generated
import JvmArchive.Proofs.Rename.Identity
import JvmArchive.Proofs.Rename.Inverse
import JvmArchive.Proofs.Rename.Isomorphism
import JvmArchive.Proofs.Rename.Kept
import JvmArchive.Proofs.Rename.Links
import JvmArchive.Proofs.Rename.Mentions
import JvmArchive.Proofs.Rename.MethodNames
import JvmArchive.Proofs.Rename.OverrideNames
import JvmArchive.Proofs.Rename.Overrides
import JvmArchive.Proofs.Rename.RoundTrip
import JvmArchive.Proofs.Results
import JvmArchive.Proofs.Signature.Grammar
import JvmArchive.Proofs.Signature.Renaming
import JvmArchive.Proofs.Signature.Unchanged
import JvmArchive.Proofs.Table
import JvmArchive.Proofs.Text.Cut
import JvmArchive.Proofs.Text.ModifiedUtf8
import JvmArchive.Proofs.Text.Utf8
import JvmArchive.Proofs.Transform.Visits
import JvmArchive.Random.ChaCha
import JvmArchive.Rename.Class
import JvmArchive.Rename.Reference
import JvmArchive.Rename.Renamer
import JvmArchive.Signature.Mapping
import JvmArchive.Table
import JvmArchive.Text.Cut
import JvmArchive.Text.ModifiedUtf8
import JvmArchive.Text.Quoted
import JvmArchive.Text.Shapeless
import JvmArchive.Text.Utf8
import JvmArchive.Transform.Dispatch
import JvmArchive.Transform.Script
