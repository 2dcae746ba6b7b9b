import ScratchFormat.Text.Basic
import ScratchFormat.Scan.Line
import ScratchFormat.Role.Basic
import ScratchFormat.Format.Bounded
import ScratchFormat.Batch.Bounded
import ScratchFormat.Diff.Unified
import ScratchFormat.Edit
import ScratchFormat.Manifest
import ScratchFormat.Project.Run
import ScratchFormat.Project.Walk
import ScratchFormat.Main
import ScratchFormat.Proofs.Text
import ScratchFormat.Proofs.Scan
import ScratchFormat.Proofs.Operators
import ScratchFormat.Proofs.Slices
import ScratchFormat.Proofs.Role
import ScratchFormat.Proofs.Pipes
import ScratchFormat.Proofs.Links
import ScratchFormat.Proofs.Solid
import ScratchFormat.Proofs.Alphabet
import ScratchFormat.Proofs.Settling
import ScratchFormat.Proofs.Lexing
import ScratchFormat.Proofs.Spacing
import ScratchFormat.Proofs.Fusion
import ScratchFormat.Proofs.Rescan
import ScratchFormat.Proofs.Bytewise.Scan
import ScratchFormat.Proofs.Bytewise.Line
import ScratchFormat.Proofs.Bytewise.Gaps
import ScratchFormat.Proofs.Extent
import ScratchFormat.Proofs.Bytewise.Layout
import ScratchFormat.Proofs.Bytewise.Format
import ScratchFormat.Proofs.Edges
import ScratchFormat.Proofs.Modes
import ScratchFormat.Proofs.Broken
import ScratchFormat.Proofs.Grid
import ScratchFormat.Proofs.Shape
import ScratchFormat.Proofs.LineEnds
import ScratchFormat.Proofs.Drift
import ScratchFormat.Proofs.Paste
import ScratchFormat.Batch.Pool
import ScratchFormat.Proofs.Schedule
import ScratchFormat.Proofs.Commands
import ScratchFormat.Proofs.Script
import ScratchFormat.Proofs.Edits
import ScratchFormat.Proofs.Paths
import ScratchFormat.Proofs.Disk
import ScratchFormat.Proofs.Search
import ScratchFormat.Proofs.Collected
import ScratchFormat.Proofs.Landing
import ScratchFormat.Proofs.Cursor
import ScratchFormat.Proofs.Pieces
import ScratchFormat.Proofs.LinkLines
import ScratchFormat.Proofs.ChainRule
import ScratchFormat.Proofs.ChainTokens
import ScratchFormat.Proofs.Rebreaking
import ScratchFormat.Proofs.SetAgain
import ScratchFormat.Proofs.SetSegments
import ScratchFormat.Proofs.SetMarks
import ScratchFormat.Proofs.SetLines
import ScratchFormat.Proofs.Heads
import ScratchFormat.Proofs.Indentation
import ScratchFormat.Proofs.Scopes
import ScratchFormat.Proofs.Reruns
import ScratchFormat.Proofs.MarginRemoval
import ScratchFormat.Proofs.Paragraphs
import ScratchFormat.Proofs.RunLines
import ScratchFormat.Proofs.Trimming
import ScratchFormat.Proofs.Partition
import ScratchFormat.Proofs.Columns
import ScratchFormat.Proofs.PipeRuns
import ScratchFormat.Proofs.Quotes
