import LiquidTemplate.Command.Arguments
import LiquidTemplate.Command.Basic
import LiquidTemplate.Command.Folder
import LiquidTemplate.Command.Help
import LiquidTemplate.Json
import LiquidTemplate.Keyword
import LiquidTemplate.Lexeme.Basic
import LiquidTemplate.Lexeme.Delimiter
import LiquidTemplate.Lexeme.Head
import LiquidTemplate.Lexeme.Opening
import LiquidTemplate.Lexeme.Raw
import LiquidTemplate.Lexeme.Scan
import LiquidTemplate.Lexeme.Value
import LiquidTemplate.Main
import LiquidTemplate.Markup
import LiquidTemplate.Parse.Document
import LiquidTemplate.Parse.Event
import LiquidTemplate.Parse.Key
import LiquidTemplate.Parse.Rejection
import LiquidTemplate.Parse.State
import LiquidTemplate.Proofs.Arena.Blanks
import LiquidTemplate.Proofs.Arena.Builder
import LiquidTemplate.Proofs.Arena.Capacity
import LiquidTemplate.Proofs.Arena.Concatenation
import LiquidTemplate.Proofs.Arena.Contents
import LiquidTemplate.Proofs.Arena.Depth
import LiquidTemplate.Proofs.Arena.Layout
import LiquidTemplate.Proofs.Arena.Local
import LiquidTemplate.Proofs.Arena.Order
import LiquidTemplate.Proofs.Arena.PostOrder
import LiquidTemplate.Proofs.Arena.Rewriting
import LiquidTemplate.Proofs.Arena.Simulation
import LiquidTemplate.Proofs.Arena.Walk
import LiquidTemplate.Proofs.Coverage.AttributeNames
import LiquidTemplate.Proofs.Coverage.Attributes
import LiquidTemplate.Proofs.Coverage.Bodies
import LiquidTemplate.Proofs.Coverage.Containers
import LiquidTemplate.Proofs.Coverage.Entries
import LiquidTemplate.Proofs.Coverage.Fields
import LiquidTemplate.Proofs.Coverage.Induction
import LiquidTemplate.Proofs.Coverage.Kinds
import LiquidTemplate.Proofs.Coverage.Marks
import LiquidTemplate.Proofs.Coverage.Order
import LiquidTemplate.Proofs.Coverage.Pieces
import LiquidTemplate.Proofs.Coverage.Rewriting
import LiquidTemplate.Proofs.Coverage.Subtrees
import LiquidTemplate.Proofs.Coverage.TextRuns
import LiquidTemplate.Proofs.Coverage.Tiling
import LiquidTemplate.Proofs.Coverage.Verbatim
import LiquidTemplate.Proofs.Json.Braces
import LiquidTemplate.Proofs.Json.Chars
import LiquidTemplate.Proofs.Json.Depth
import LiquidTemplate.Proofs.Json.Injective
import LiquidTemplate.Proofs.Json.Objects
import LiquidTemplate.Proofs.Json.Unique
import LiquidTemplate.Proofs.Json.Walk
import LiquidTemplate.Proofs.Lexeme.Atoms
import LiquidTemplate.Proofs.Lexeme.Closed
import LiquidTemplate.Proofs.Lexeme.Construct
import LiquidTemplate.Proofs.Lexeme.Enclosure
import LiquidTemplate.Proofs.Lexeme.Grammar
import LiquidTemplate.Proofs.Lexeme.Head
import LiquidTemplate.Proofs.Lexeme.Pairing
import LiquidTemplate.Proofs.Lexeme.Raw
import LiquidTemplate.Proofs.Lexeme.Sequence
import LiquidTemplate.Proofs.Lexeme.Value
import LiquidTemplate.Proofs.Nesting.Closing
import LiquidTemplate.Proofs.Nesting.Derivation
import LiquidTemplate.Proofs.Nesting.Extension
import LiquidTemplate.Proofs.Nesting.Grammar
import LiquidTemplate.Proofs.Nesting.Language
import LiquidTemplate.Proofs.Nesting.Move
import LiquidTemplate.Proofs.Nesting.Relocation
import LiquidTemplate.Proofs.Nesting.Rewriting
import LiquidTemplate.Proofs.Nesting.ViablePrefix
import LiquidTemplate.Proofs.Reader.Bodies
import LiquidTemplate.Proofs.Reader.Constructs
import LiquidTemplate.Proofs.Reader.Cuts
import LiquidTemplate.Proofs.Reader.Extraction
import LiquidTemplate.Proofs.Reader.Heads
import LiquidTemplate.Proofs.Reader.Loading
import LiquidTemplate.Proofs.Reader.Parser
import LiquidTemplate.Proofs.Reader.Range
import LiquidTemplate.Proofs.Reader.Restart
import LiquidTemplate.Proofs.Reader.Scanner
import LiquidTemplate.Proofs.Reader.Spans
import LiquidTemplate.Proofs.Reader.Tokens
import LiquidTemplate.Proofs.Text.Boundary
import LiquidTemplate.Proofs.Text.FirstOccurrence
import LiquidTemplate.Proofs.Text.Lines
import LiquidTemplate.Proofs.Text.Places
import LiquidTemplate.Proofs.Text.Run
import LiquidTemplate.Proofs.Text.Slice
import LiquidTemplate.Proofs.Text.Utf8
import LiquidTemplate.Proofs.Text.Within
import LiquidTemplate.Proofs.Token.Contiguous
import LiquidTemplate.Proofs.Token.Cursor
import LiquidTemplate.Proofs.Token.Exchange
import LiquidTemplate.Proofs.Token.FirstEnds
import LiquidTemplate.Proofs.Token.Heads
import LiquidTemplate.Proofs.Token.Parts
import LiquidTemplate.Proofs.Token.RawTags
import LiquidTemplate.Proofs.Token.Values
import LiquidTemplate.Proofs.Trace.Emitted
import LiquidTemplate.Proofs.Trace.Traversal
import LiquidTemplate.Proofs.Tree.Container
import LiquidTemplate.Proofs.Tree.Relocation
import LiquidTemplate.Proofs.Tree.Size
import LiquidTemplate.Proofs.Tree.Values
import LiquidTemplate.Proofs.Trim.Inert
import LiquidTemplate.Proofs.Trim.Kept
import LiquidTemplate.Proofs.Trim.Marker
import LiquidTemplate.Proofs.Trim.Nodes
import LiquidTemplate.Proofs.Trim.Replaced
import LiquidTemplate.Proofs.Trim.Spelling
import LiquidTemplate.Proofs.Trim.Tokens
import LiquidTemplate.Text.Alphanumeric
import LiquidTemplate.Text.Basic
import LiquidTemplate.Text.Blank
import LiquidTemplate.Text.CharRange
import LiquidTemplate.Text.Located
import LiquidTemplate.Text.Place
import LiquidTemplate.Text.Search
import LiquidTemplate.Token.Basic
import LiquidTemplate.Token.Parts
import LiquidTemplate.Tree.Arena
import LiquidTemplate.Tree.Json
import LiquidTemplate.Tree.Node
import LiquidTemplate.Tree.Ordered
import LiquidTemplate.Tree.Outline
import LiquidTemplate.Tree.Size
