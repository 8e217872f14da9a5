import StorageWeave.Archive.Basic
import StorageWeave.Archive.Codec
import StorageWeave.Bytecode.Access
import StorageWeave.Bytecode.Assembler
import StorageWeave.Bytecode.Class
import StorageWeave.Bytecode.Code
import StorageWeave.Bytecode.Document.Reader
import StorageWeave.Bytecode.Document.Writer
import StorageWeave.Bytecode.Instruction
import StorageWeave.Bytecode.Type
import StorageWeave.Bytes
import StorageWeave.Command.Arguments
import StorageWeave.Command.Basic
import StorageWeave.Command.Listing
import StorageWeave.Digest.Sha256
import StorageWeave.Files.Archive
import StorageWeave.Files.Operations
import StorageWeave.Files.Path
import StorageWeave.Files.Volume
import StorageWeave.Json.Basic
import StorageWeave.Json.Number
import StorageWeave.Json.Printer
import StorageWeave.Json.Record
import StorageWeave.Json.Token
import StorageWeave.Machine.Hook
import StorageWeave.Machine.Interpreter
import StorageWeave.Machine.State
import StorageWeave.Machine.Step
import StorageWeave.Machine.Value
import StorageWeave.Main
import StorageWeave.Numeric.Binary
import StorageWeave.Numeric.Digits
import StorageWeave.Numeric.Shortest
import StorageWeave.Proofs.Agreement
import StorageWeave.Proofs.Assembly
import StorageWeave.Proofs.Bodies
import StorageWeave.Proofs.Branches
import StorageWeave.Proofs.Calls
import StorageWeave.Proofs.Classwise
import StorageWeave.Proofs.CompleteRuns
import StorageWeave.Proofs.Construction
import StorageWeave.Proofs.Container
import StorageWeave.Proofs.ControlFlow
import StorageWeave.Proofs.Cycles
import StorageWeave.Proofs.Decimals
import StorageWeave.Proofs.Deserialization
import StorageWeave.Proofs.Dispatch
import StorageWeave.Proofs.Documents
import StorageWeave.Proofs.Exactness
import StorageWeave.Proofs.Execution
import StorageWeave.Proofs.Extraction
import StorageWeave.Proofs.Failures
import StorageWeave.Proofs.FieldOrder
import StorageWeave.Proofs.Fields
import StorageWeave.Proofs.FileSystems
import StorageWeave.Proofs.Forwarding
import StorageWeave.Proofs.Frames
import StorageWeave.Proofs.Heap
import StorageWeave.Proofs.Heights
import StorageWeave.Proofs.Hooks
import StorageWeave.Proofs.Indexing
import StorageWeave.Proofs.Inheritance
import StorageWeave.Proofs.Injection
import StorageWeave.Proofs.Interleaving
import StorageWeave.Proofs.Inventory
import StorageWeave.Proofs.Labels
import StorageWeave.Proofs.LazyFields
import StorageWeave.Proofs.Levels
import StorageWeave.Proofs.Lineage
import StorageWeave.Proofs.Linking
import StorageWeave.Proofs.Loaded
import StorageWeave.Proofs.Loops
import StorageWeave.Proofs.Members
import StorageWeave.Proofs.Memo
import StorageWeave.Proofs.Modifiers
import StorageWeave.Proofs.Narrowing
import StorageWeave.Proofs.Numerals
import StorageWeave.Proofs.OnceOnly
import StorageWeave.Proofs.Overloads
import StorageWeave.Proofs.Paths
import StorageWeave.Proofs.Printing
import StorageWeave.Proofs.Prologue
import StorageWeave.Proofs.Rebinding
import StorageWeave.Proofs.Records
import StorageWeave.Proofs.Redirection
import StorageWeave.Proofs.Relocation
import StorageWeave.Proofs.Rereading
import StorageWeave.Proofs.Reweaving
import StorageWeave.Proofs.RootFields
import StorageWeave.Proofs.Rounding
import StorageWeave.Proofs.Searching
import StorageWeave.Proofs.SecondPass
import StorageWeave.Proofs.Session
import StorageWeave.Proofs.ShortNumerals
import StorageWeave.Proofs.Simulation
import StorageWeave.Proofs.Splicing
import StorageWeave.Proofs.StackEffects
import StorageWeave.Proofs.Stored
import StorageWeave.Proofs.Superclasses
import StorageWeave.Proofs.Transparency
import StorageWeave.Proofs.Truncation
import StorageWeave.Proofs.Updates
import StorageWeave.Proofs.Verdicts
import StorageWeave.Proofs.Woven
import StorageWeave.Table
import StorageWeave.Text.Blank
import StorageWeave.Text.Graphic
import StorageWeave.Text.Quoted
import StorageWeave.Weaving.Archive
import StorageWeave.Weaving.Augmentation
import StorageWeave.Weaving.Class
import StorageWeave.Weaving.ClassIndex
import StorageWeave.Weaving.Classification
import StorageWeave.Weaving.Config
import StorageWeave.Weaving.Draft
import StorageWeave.Weaving.Error
import StorageWeave.Weaving.File
import StorageWeave.Weaving.Hierarchy
import StorageWeave.Weaving.Injection
import StorageWeave.Weaving.Log
import StorageWeave.Weaving.Method
import StorageWeave.Weaving.Names
import StorageWeave.Weaving.Oracle
