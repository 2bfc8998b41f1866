import TreeEdit.Binary.Cursor
import TreeEdit.Binary.Memory
import TreeEdit.Binary.Word
import TreeEdit.Binary.Zone
import TreeEdit.Command.Arguments
import TreeEdit.Command.Disassemble
import TreeEdit.Command.Outcome
import TreeEdit.Command.Run
import TreeEdit.Command.Tool
import TreeEdit.Config
import TreeEdit.Document.Basic
import TreeEdit.Document.Dispatch
import TreeEdit.Document.Edit
import TreeEdit.Document.Hosting
import TreeEdit.Document.Markup
import TreeEdit.Error
import TreeEdit.Failure
import TreeEdit.Fault
import TreeEdit.Files.Input
import TreeEdit.Files.Path
import TreeEdit.Files.System
import TreeEdit.Files.Tree
import TreeEdit.Host.Basic
import TreeEdit.Host.Watched
import TreeEdit.Instr.Basic
import TreeEdit.Instr.Decode
import TreeEdit.Instr.Opcode
import TreeEdit.Instr.View
import TreeEdit.Journal
import TreeEdit.Json
import TreeEdit.Listener.Registry
import TreeEdit.Listener.Scene
import TreeEdit.Listing
import TreeEdit.Machine.Basic
import TreeEdit.Machine.Exec
import TreeEdit.Machine.Run
import TreeEdit.Machine.Stack
import TreeEdit.Machine.StringTable
import TreeEdit.Main
import TreeEdit.OrderedMap
import TreeEdit.Program.Builder
import TreeEdit.Program.Load
import TreeEdit.Program.Statement
import TreeEdit.Proofs.Agreement
import TreeEdit.Proofs.Document.Building
import TreeEdit.Proofs.Document.Contents
import TreeEdit.Proofs.Document.Cropping
import TreeEdit.Proofs.Document.Effects
import TreeEdit.Proofs.Document.Forest
import TreeEdit.Proofs.Document.Handlers
import TreeEdit.Proofs.Document.Marks
import TreeEdit.Proofs.Document.Mirroring
import TreeEdit.Proofs.Document.Reachable
import TreeEdit.Proofs.Document.Relinking
import TreeEdit.Proofs.Document.Renewal
import TreeEdit.Proofs.Document.Replacement
import TreeEdit.Proofs.Document.Sequences
import TreeEdit.Proofs.Document.Strokes
import TreeEdit.Proofs.Document.Unambiguous
import TreeEdit.Proofs.Document.Unfolding
import TreeEdit.Proofs.Following
import TreeEdit.Proofs.Instr.Cursor
import TreeEdit.Proofs.Instr.Decoding
import TreeEdit.Proofs.Instr.Legible
import TreeEdit.Proofs.Instr.Rendering
import TreeEdit.Proofs.Listener.Attendance
import TreeEdit.Proofs.Listener.Custody
import TreeEdit.Proofs.Listener.Handling
import TreeEdit.Proofs.Listener.Leading
import TreeEdit.Proofs.Listener.Ledger
import TreeEdit.Proofs.Listener.Leftover
import TreeEdit.Proofs.Listener.Revocation
import TreeEdit.Proofs.Listener.Takedown
import TreeEdit.Proofs.Listener.Transcript
import TreeEdit.Proofs.Listener.Upkeep
import TreeEdit.Proofs.Listing
import TreeEdit.Proofs.Listing.Faithful
import TreeEdit.Proofs.Machine.Alike
import TreeEdit.Proofs.Machine.Balance
import TreeEdit.Proofs.Machine.Confinement
import TreeEdit.Proofs.Machine.Congruence
import TreeEdit.Proofs.Machine.Containment
import TreeEdit.Proofs.Machine.Cropping
import TreeEdit.Proofs.Machine.Cutting
import TreeEdit.Proofs.Machine.Depth
import TreeEdit.Proofs.Machine.Encoding
import TreeEdit.Proofs.Machine.Executions
import TreeEdit.Proofs.Machine.Folding
import TreeEdit.Proofs.Machine.Following
import TreeEdit.Proofs.Machine.Leading
import TreeEdit.Proofs.Machine.Locality
import TreeEdit.Proofs.Machine.Moves
import TreeEdit.Proofs.Machine.Placement
import TreeEdit.Proofs.Machine.Quiet
import TreeEdit.Proofs.Machine.Raising
import TreeEdit.Proofs.Machine.Run
import TreeEdit.Proofs.Machine.Steps
import TreeEdit.Proofs.Machine.Walking
import TreeEdit.Proofs.OrderedMap
import TreeEdit.Proofs.Program.Application
import TreeEdit.Proofs.Program.Blocks
import TreeEdit.Proofs.Program.Construction
import TreeEdit.Proofs.Program.Denotation
import TreeEdit.Proofs.Program.Direct
import TreeEdit.Proofs.Program.Items
import TreeEdit.Proofs.Program.Layout
import TreeEdit.Proofs.Program.Numbering
import TreeEdit.Proofs.Program.Replacement
import TreeEdit.Proofs.Session.Balance
import TreeEdit.Proofs.Session.Building
import TreeEdit.Proofs.Session.Configurations
import TreeEdit.Proofs.Session.Cutting
import TreeEdit.Proofs.Session.Deliveries
import TreeEdit.Proofs.Session.Folding
import TreeEdit.Proofs.Session.Following
import TreeEdit.Proofs.Session.History
import TreeEdit.Proofs.Session.Leftover
import TreeEdit.Proofs.Session.Lifecycle
import TreeEdit.Proofs.Session.Locality
import TreeEdit.Proofs.Session.Mirroring
import TreeEdit.Proofs.Session.Previews
import TreeEdit.Proofs.Session.Reached
import TreeEdit.Proofs.Session.Refusal
import TreeEdit.Proofs.Session.Repetition
import TreeEdit.Proofs.Session.Replacement
import TreeEdit.Proofs.Session.Safety
import TreeEdit.Proofs.Session.Steps
import TreeEdit.Proofs.Source.Assembly
import TreeEdit.Proofs.Source.Composition
import TreeEdit.Proofs.Source.Printing
import TreeEdit.Proofs.Source.Reading
import TreeEdit.Proofs.Source.Scanning
import TreeEdit.Proofs.Source.Spacing
import TreeEdit.Proofs.Steps
import TreeEdit.Proofs.Text.Lines
import TreeEdit.Proofs.Text.Printed
import TreeEdit.Proofs.Text.Segments
import TreeEdit.Proofs.Text.Utf8
import TreeEdit.Report
import TreeEdit.Session
import TreeEdit.Source.Assemble
import TreeEdit.Source.Line
import TreeEdit.Source.Print
import TreeEdit.Source.Token
import TreeEdit.Step
import TreeEdit.Text.Blank
import TreeEdit.Text.Lines
import TreeEdit.Text.Numeral
import TreeEdit.Text.Quoted
import TreeEdit.Text.Unprintable
import TreeEdit.Text.Utf8
