import ScriptEngine.Boxed
import ScriptEngine.Buffer
import ScriptEngine.Cli
import ScriptEngine.Code.Compile
import ScriptEngine.Code.Emitter
import ScriptEngine.Code.Instr
import ScriptEngine.Code.Listing
import ScriptEngine.Code.Op
import ScriptEngine.Code.Unit
import ScriptEngine.Decimal.Binary
import ScriptEngine.Decimal.Notation
import ScriptEngine.Decimal.Shortest
import ScriptEngine.Error
import ScriptEngine.Ffi.Arg
import ScriptEngine.Ffi.Callbacks
import ScriptEngine.Ffi.Signature
import ScriptEngine.Files
import ScriptEngine.Handle
import ScriptEngine.Heap.Arena
import ScriptEngine.Heap.Basic
import ScriptEngine.Heap.Collect
import ScriptEngine.Heap.Conversion
import ScriptEngine.Heap.Properties
import ScriptEngine.Heap.Strings
import ScriptEngine.Json
import ScriptEngine.Machine.Access
import ScriptEngine.Machine.Builtin
import ScriptEngine.Machine.Embedding
import ScriptEngine.Machine.Entry
import ScriptEngine.Machine.Foreign
import ScriptEngine.Machine.Library
import ScriptEngine.Machine.Operator
import ScriptEngine.Machine.Property
import ScriptEngine.Machine.Run
import ScriptEngine.Machine.State
import ScriptEngine.Machine.Step
import ScriptEngine.Main
import ScriptEngine.Number.Arithmetic
import ScriptEngine.Number.Basic
import ScriptEngine.Number.Literal
import ScriptEngine.Number.Text
import ScriptEngine.Options
import ScriptEngine.Proofs.Boxed
import ScriptEngine.Proofs.Code.Balance
import ScriptEngine.Proofs.Code.Charts
import ScriptEngine.Proofs.Code.Emission
import ScriptEngine.Proofs.Code.Encoding
import ScriptEngine.Proofs.Code.Fragment
import ScriptEngine.Proofs.Code.Layout
import ScriptEngine.Proofs.Code.Levels
import ScriptEngine.Proofs.Code.LineMap
import ScriptEngine.Proofs.Code.Lines
import ScriptEngine.Proofs.Code.Disassembly
import ScriptEngine.Proofs.Code.Listings
import ScriptEngine.Proofs.Code.Marks
import ScriptEngine.Proofs.Code.Programs
import ScriptEngine.Proofs.Code.Shape
import ScriptEngine.Proofs.Code.Units
import ScriptEngine.Proofs.Ffi.Registrations
import ScriptEngine.Proofs.Ffi.Signatures
import ScriptEngine.Proofs.Heap.Arena
import ScriptEngine.Proofs.Heap.Changes
import ScriptEngine.Proofs.Heap.Collection
import ScriptEngine.Proofs.Heap.Compaction
import ScriptEngine.Proofs.Heap.Delegation
import ScriptEngine.Proofs.Heap.Histories
import ScriptEngine.Proofs.Heap.Lifetimes
import ScriptEngine.Proofs.Heap.Marking
import ScriptEngine.Proofs.Heap.PairedChanges
import ScriptEngine.Proofs.Heap.PairedCollection
import ScriptEngine.Proofs.Heap.Pairing
import ScriptEngine.Proofs.Heap.Preservation
import ScriptEngine.Proofs.Heap.PropertyLists
import ScriptEngine.Proofs.Heap.Records
import ScriptEngine.Proofs.Heap.Renaming
import ScriptEngine.Proofs.Machine.Accounts
import ScriptEngine.Proofs.Machine.Activities
import ScriptEngine.Proofs.Machine.Bounds
import ScriptEngine.Proofs.Machine.Callers
import ScriptEngine.Proofs.Machine.Collection
import ScriptEngine.Proofs.Machine.Courses
import ScriptEngine.Proofs.Machine.Cursors
import ScriptEngine.Proofs.Machine.Discipline
import ScriptEngine.Proofs.Machine.Fetches
import ScriptEngine.Proofs.Machine.Footing
import ScriptEngine.Proofs.Machine.Functions
import ScriptEngine.Proofs.Machine.Inhibition
import ScriptEngine.Proofs.Machine.Interruptions
import ScriptEngine.Proofs.Machine.Moments
import ScriptEngine.Proofs.Machine.MovedCalls
import ScriptEngine.Proofs.Machine.MovedFunctions
import ScriptEngine.Proofs.Machine.Moving
import ScriptEngine.Proofs.Machine.NativeCalls
import ScriptEngine.Proofs.Machine.Notes
import ScriptEngine.Proofs.Machine.Obligations
import ScriptEngine.Proofs.Machine.Operations
import ScriptEngine.Proofs.Machine.PairedActions
import ScriptEngine.Proofs.Machine.PairedCalls
import ScriptEngine.Proofs.Machine.PairedFunctions
import ScriptEngine.Proofs.Machine.PairedOperations
import ScriptEngine.Proofs.Machine.PairedRuns
import ScriptEngine.Proofs.Machine.Pairs
import ScriptEngine.Proofs.Machine.Quiet
import ScriptEngine.Proofs.Machine.Reachable
import ScriptEngine.Proofs.Machine.Requests
import ScriptEngine.Proofs.Machine.Rows
import ScriptEngine.Proofs.Machine.Runs
import ScriptEngine.Proofs.Machine.Scopes
import ScriptEngine.Proofs.Machine.Sessions
import ScriptEngine.Proofs.Machine.Sites
import ScriptEngine.Proofs.Machine.Skeleton
import ScriptEngine.Proofs.Machine.Steady
import ScriptEngine.Proofs.Machine.Strokes
import ScriptEngine.Proofs.Machine.Timing
import ScriptEngine.Proofs.Machine.Tokens
import ScriptEngine.Proofs.Machine.Traces
import ScriptEngine.Proofs.Machine.Trades
import ScriptEngine.Proofs.Machine.TwinActions
import ScriptEngine.Proofs.Machine.TwinCalls
import ScriptEngine.Proofs.Machine.TwinRuns
import ScriptEngine.Proofs.Machine.TwinSteps
import ScriptEngine.Proofs.Machine.Twins
import ScriptEngine.Proofs.Machine.Unwinding
import ScriptEngine.Proofs.Machine.Widths
import ScriptEngine.Proofs.Source.Targets
import ScriptEngine.Proofs.Varint
import ScriptEngine.Roots
import ScriptEngine.Source.Escape
import ScriptEngine.Source.Lexer
import ScriptEngine.Source.Parse
import ScriptEngine.Source.Token
import ScriptEngine.Source.Tree
import ScriptEngine.Text.Ascii
import ScriptEngine.Text.Blank
import ScriptEngine.Text.Utf8
import ScriptEngine.Value
import ScriptEngine.Varint
import ScriptEngine.Proofs.Machine.Evaluations
import ScriptEngine.Proofs.Machine.Receivers
import ScriptEngine.Proofs.Code.AddressSpace
import ScriptEngine.Proofs.Roots
import ScriptEngine.Proofs.Machine.Variables
import ScriptEngine.Proofs.Source.Branches
import ScriptEngine.Proofs.Source.Escapes
import ScriptEngine.Proofs.Source.Tiling
import ScriptEngine.Proofs.Machine.Indexing
import ScriptEngine.Proofs.Machine.Views
import ScriptEngine.Proofs.Machine.Texts
import ScriptEngine.Proofs.Machine.NumericKeys
import ScriptEngine.Proofs.Text.Blanks
import ScriptEngine.Proofs.Text.Offsets
import ScriptEngine.Proofs.Ffi.Brackets
import ScriptEngine.Proofs.Ffi.Prototypes
import ScriptEngine.Proofs.Ffi.Reading
import ScriptEngine.Proofs.Ffi.Printing
import ScriptEngine.Proofs.Ffi.Acceptance
import ScriptEngine.Proofs.Ffi.Offsets
import ScriptEngine.Proofs.RawWords
import ScriptEngine.Proofs.Code.Splices
import ScriptEngine.Proofs.Machine.Declarations
