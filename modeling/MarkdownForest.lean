import MarkdownForest.Arena
import MarkdownForest.Block.Build
import MarkdownForest.Block.Layout
import MarkdownForest.Block.Start
import MarkdownForest.Command.Arguments
import MarkdownForest.Command.Compile
import MarkdownForest.Command.Document
import MarkdownForest.Command.FileTree
import MarkdownForest.Command.Init
import MarkdownForest.Command.Machine
import MarkdownForest.Command.Path
import MarkdownForest.Command.Project
import MarkdownForest.Command.Request
import MarkdownForest.Command.Run
import MarkdownForest.Command.Session
import MarkdownForest.Command.ShowTree
import MarkdownForest.CommonMark.Escape
import MarkdownForest.CommonMark.Writer
import MarkdownForest.Content
import MarkdownForest.Document
import MarkdownForest.Forest.Basic
import MarkdownForest.Forest.Branch
import MarkdownForest.Forest.Edit
import MarkdownForest.Forest.Html
import MarkdownForest.Forest.Node
import MarkdownForest.Forest.Observe
import MarkdownForest.Forest.Outline
import MarkdownForest.Forest.Plant
import MarkdownForest.Forest.Walk
import MarkdownForest.Html.Escape
import MarkdownForest.Html.Page
import MarkdownForest.Html.Render
import MarkdownForest.Inline.Angle
import MarkdownForest.Inline.Build
import MarkdownForest.Inline.CodeSpan
import MarkdownForest.Inline.Emphasis
import MarkdownForest.Inline.Piece
import MarkdownForest.Inline.Scan
import MarkdownForest.Inline.Target
import MarkdownForest.Inline.Token
import MarkdownForest.Json.Basic
import MarkdownForest.Json.Printer
import MarkdownForest.Json.Reader
import MarkdownForest.Kind
import MarkdownForest.Line
import MarkdownForest.Main
import MarkdownForest.Ownership
import MarkdownForest.Proofs.Aging
import MarkdownForest.Proofs.AlternatingMarks
import MarkdownForest.Proofs.Applying
import MarkdownForest.Proofs.Autolinks
import MarkdownForest.Proofs.BlockRecursion
import MarkdownForest.Proofs.BlockRuns
import MarkdownForest.Proofs.BlocksInside
import MarkdownForest.Proofs.BracketPlaces
import MarkdownForest.Proofs.BracketStack
import MarkdownForest.Proofs.Branches
import MarkdownForest.Proofs.ByteSlices
import MarkdownForest.Proofs.Calls
import MarkdownForest.Proofs.ChildLists
import MarkdownForest.Proofs.CodeSpans
import MarkdownForest.Proofs.Collecting
import MarkdownForest.Proofs.Compiling
import MarkdownForest.Proofs.ContainedSources
import MarkdownForest.Proofs.DecodedAddresses
import MarkdownForest.Proofs.Edits
import MarkdownForest.Proofs.EmphasisLoop
import MarkdownForest.Proofs.EndlessRuns
import MarkdownForest.Proofs.ErrorPositions
import MarkdownForest.Proofs.EscapedLines
import MarkdownForest.Proofs.EscapedText
import MarkdownForest.Proofs.FencedCode
import MarkdownForest.Proofs.FinalNewline
import MarkdownForest.Proofs.FollowingLines
import MarkdownForest.Proofs.Freeing
import MarkdownForest.Proofs.Growing
import MarkdownForest.Proofs.Handles
import MarkdownForest.Proofs.HeaderTexts
import MarkdownForest.Proofs.InPlace
import MarkdownForest.Proofs.Isolation
import MarkdownForest.Proofs.ItemCode
import MarkdownForest.Proofs.ItemNumbers
import MarkdownForest.Proofs.JoinedTexts
import MarkdownForest.Proofs.LazyContinuation
import MarkdownForest.Proofs.LazyLines
import MarkdownForest.Proofs.Ledger
import MarkdownForest.Proofs.Lifetimes
import MarkdownForest.Proofs.LineLoops
import MarkdownForest.Proofs.LineSlices
import MarkdownForest.Proofs.LinkLoops
import MarkdownForest.Proofs.Links
import MarkdownForest.Proofs.ListRuns
import MarkdownForest.Proofs.MarkBits
import MarkdownForest.Proofs.Marking
import MarkdownForest.Proofs.Markup
import MarkdownForest.Proofs.Matching
import MarkdownForest.Proofs.Mirroring
import MarkdownForest.Proofs.Moves
import MarkdownForest.Proofs.Mutations
import MarkdownForest.Proofs.NestedLinks
import MarkdownForest.Proofs.NestedRuns
import MarkdownForest.Proofs.NestedText
import MarkdownForest.Proofs.Nesting
import MarkdownForest.Proofs.NormalDocuments
import MarkdownForest.Proofs.NormalInlines
import MarkdownForest.Proofs.NormalPieces
import MarkdownForest.Proofs.NormalTrees
import MarkdownForest.Proofs.OpenParagraphs
import MarkdownForest.Proofs.Outcome
import MarkdownForest.Proofs.Outlines
import MarkdownForest.Proofs.PageAttributes
import MarkdownForest.Proofs.Pairing
import MarkdownForest.Proofs.Path
import MarkdownForest.Proofs.PercentEscapes
import MarkdownForest.Proofs.Placement
import MarkdownForest.Proofs.PlainDocuments
import MarkdownForest.Proofs.Planting
import MarkdownForest.Proofs.PlantingOrder
import MarkdownForest.Proofs.Reaching
import MarkdownForest.Proofs.ReadingAlong
import MarkdownForest.Proofs.ReadingBack
import MarkdownForest.Proofs.Recasting
import MarkdownForest.Proofs.Relocation
import MarkdownForest.Proofs.Renaming
import MarkdownForest.Proofs.Rendering
import MarkdownForest.Proofs.Requests
import MarkdownForest.Proofs.Rounds
import MarkdownForest.Proofs.SafeAddresses
import MarkdownForest.Proofs.SafeRendering
import MarkdownForest.Proofs.ScanSlices
import MarkdownForest.Proofs.ScannedLinks
import MarkdownForest.Proofs.Scanning
import MarkdownForest.Proofs.Serializing
import MarkdownForest.Proofs.Shadowing
import MarkdownForest.Proofs.Slots
import MarkdownForest.Proofs.Sound
import MarkdownForest.Proofs.SourceLines
import MarkdownForest.Proofs.SpacedItems
import MarkdownForest.Proofs.StoreShadows
import MarkdownForest.Proofs.Subtrees
import MarkdownForest.Proofs.Sweeping
import MarkdownForest.Proofs.Targets
import MarkdownForest.Proofs.TextLines
import MarkdownForest.Proofs.TextSlices
import MarkdownForest.Proofs.TokenPatterns
import MarkdownForest.Proofs.TokenTiles
import MarkdownForest.Proofs.Traversals
import MarkdownForest.Proofs.Typography
import MarkdownForest.Proofs.Undoing
import MarkdownForest.Proofs.Unobservable
import MarkdownForest.Proofs.Updates
import MarkdownForest.Proofs.Walks
import MarkdownForest.Proofs.WorkspaceShadows
import MarkdownForest.Proofs.Workspaces
import MarkdownForest.Proofs.WrittenAutolinks
import MarkdownForest.Report
import MarkdownForest.Settings
import MarkdownForest.Settings.Json
import MarkdownForest.Text.Alphanumeric
import MarkdownForest.Text.Printable
import MarkdownForest.Text.Punctuation
import MarkdownForest.Text.Quoted
import MarkdownForest.Text.Smart
import MarkdownForest.Text.Space
import MarkdownForest.Text.Utf8
import MarkdownForest.Text.Width
import MarkdownForest.Tree
import MarkdownForest.Tree.Json
import MarkdownForest.Workspace
import MarkdownForest.Wrapper.Collector
import MarkdownForest.Wrapper.Heap
import MarkdownForest.Wrapper.Identity
import MarkdownForest.Wrapper.Mutation
import MarkdownForest.Wrapper.Store
