import ErbTemplate.Text.Basic
import ErbTemplate.Text.Blank
import ErbTemplate.Text.Word
import ErbTemplate.Fault
import ErbTemplate.Memory.Basic
import ErbTemplate.Memory.ItemArray
import ErbTemplate.Memory.Number
import ErbTemplate.Memory.TextBuffer
import ErbTemplate.Memory.ItemBlock
import ErbTemplate.Source.Span
import ErbTemplate.Token.Basic
import ErbTemplate.Token.Piece
import ErbTemplate.Token.Lexer
import ErbTemplate.Token.Lexing
import ErbTemplate.Options
import ErbTemplate.Tree.Issue
import ErbTemplate.Tree.Node
import ErbTemplate.Tree.Segment
import ErbTemplate.Tree.Builder
import ErbTemplate.Tree.Analysis
import ErbTemplate.Extraction
import ErbTemplate.Json.Basic
import ErbTemplate.Json.Reader
import ErbTemplate.Snapshot
import ErbTemplate.OptionSet
import ErbTemplate.Host.Resource
import ErbTemplate.Host.Contract
import ErbTemplate.Host.JsonText
import ErbTemplate.Host.Page
import ErbTemplate.Host.Script
import ErbTemplate.Boundary.Status
import ErbTemplate.Boundary.Session
import ErbTemplate.Boundary.Call
import ErbTemplate.Files
import ErbTemplate.Proofs.Text.Bytes
import ErbTemplate.Proofs.Text.Occurrence
import ErbTemplate.Proofs.Memory.Room
import ErbTemplate.Proofs.Memory.Refinement
import ErbTemplate.Proofs.Memory.Growth
import ErbTemplate.Proofs.Memory.Numbers
import ErbTemplate.Proofs.Memory.Slots
import ErbTemplate.Proofs.Memory.Writes
import ErbTemplate.Proofs.Memory.Atomic
import ErbTemplate.Proofs.Memory.Contents
import ErbTemplate.Proofs.Source.Position
import ErbTemplate.Proofs.Source.Tiles
import ErbTemplate.Proofs.Source.Ascent
import ErbTemplate.Proofs.Source.Shift
import ErbTemplate.Proofs.Token.Case
import ErbTemplate.Proofs.Token.Row
import ErbTemplate.Proofs.Token.Tiling
import ErbTemplate.Proofs.Token.Scan
import ErbTemplate.Proofs.Token.Pieces
import ErbTemplate.Proofs.Token.Cut
import ErbTemplate.Proofs.Token.Runs
import ErbTemplate.Proofs.Tree.Brackets
import ErbTemplate.Proofs.Tree.Segments
import ErbTemplate.Proofs.Tree.Readers
import ErbTemplate.Proofs.Tree.Stack
import ErbTemplate.Proofs.Tree.Unclosed
import ErbTemplate.Proofs.Tree.Whitespace
import ErbTemplate.Proofs.Tree.Coverage
import ErbTemplate.Proofs.Tree.Matching
import ErbTemplate.Proofs.Tree.Acceptance
import ErbTemplate.Proofs.Tree.Cursor
import ErbTemplate.Proofs.Tree.Leaves
import ErbTemplate.Proofs.Tree.Annotation
import ErbTemplate.Proofs.Tree.Origins
import ErbTemplate.Proofs.Tree.Progress
import ErbTemplate.Proofs.Tree.Account
import ErbTemplate.Proofs.Tree.Ends
import ErbTemplate.Proofs.Tree.Locations
import ErbTemplate.Proofs.Tree.Nesting
import ErbTemplate.Proofs.Tree.Orthogonality
import ErbTemplate.Proofs.Tree.Terminated
import ErbTemplate.Proofs.Tree.Case
import ErbTemplate.Proofs.Tree.Elements
import ErbTemplate.Proofs.Tree.Marks
import ErbTemplate.Proofs.Tree.Places
import ErbTemplate.Proofs.Tree.Repetition
import ErbTemplate.Proofs.Tree.Siblings
import ErbTemplate.Proofs.Tree.Kinds
import ErbTemplate.Proofs.Tree.Ranges
import ErbTemplate.Proofs.Tree.Delimiters
import ErbTemplate.Proofs.Tree.Mirror
import ErbTemplate.Proofs.Tree.TagEnds
import ErbTemplate.Proofs.Tree.Placement
import ErbTemplate.Proofs.Extraction.Mask
import ErbTemplate.Proofs.Extraction.Code
import ErbTemplate.Proofs.Extraction.Markup
import ErbTemplate.Proofs.Extraction.Modes
import ErbTemplate.Proofs.Extraction.Room
import ErbTemplate.Proofs.Extraction.Comments
import ErbTemplate.Proofs.Extraction.Cut
import ErbTemplate.Proofs.Extraction.Append
import ErbTemplate.Proofs.Json.RoundTrip
import ErbTemplate.Proofs.Json.Legible
import ErbTemplate.Proofs.Json.Snapshots
import ErbTemplate.Proofs.Host.Idioms
import ErbTemplate.Proofs.Host.Presentation
import ErbTemplate.Proofs.Host.Release
import ErbTemplate.Proofs.Host.Handles
import ErbTemplate.Proofs.Host.OptionSets
import ErbTemplate.Proofs.Host.Agreement
import ErbTemplate.Proofs.Boundary.Slot
import ErbTemplate.Proofs.Boundary.Wall
import ErbTemplate.Proofs.Boundary.Delivery
