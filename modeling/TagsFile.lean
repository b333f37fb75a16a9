import TagsFile.Cache.Log
import TagsFile.Cache.Store
import TagsFile.CommandLine.Options
import TagsFile.CommandLine.Run
import TagsFile.CommandLine.Usage
import TagsFile.Config.Basic
import TagsFile.Config.Collect
import TagsFile.Config.Load
import TagsFile.Config.Scan
import TagsFile.Declaration.Basic
import TagsFile.Declaration.Extraction
import TagsFile.Declaration.Heading
import TagsFile.Depth
import TagsFile.Environment
import TagsFile.Failure
import TagsFile.Fault
import TagsFile.FileSystem.Basic
import TagsFile.FileSystem.Change
import TagsFile.FileSystem.Error
import TagsFile.FileSystem.Follow
import TagsFile.FileSystem.Here
import TagsFile.FileSystem.Listing
import TagsFile.FileSystem.Resolve
import TagsFile.FileSystem.Tree
import TagsFile.Generator
import TagsFile.Glob
import TagsFile.Json.Basic
import TagsFile.Json.Reader
import TagsFile.Json.Writer
import TagsFile.Main
import TagsFile.Number.Decimal
import TagsFile.Number.Integer
import TagsFile.Number.Shortest
import TagsFile.Path.Basic
import TagsFile.Path.Relative
import TagsFile.Proofs.Coverage
import TagsFile.Proofs.CursorWalk
import TagsFile.Proofs.Recovery
import TagsFile.Record
import TagsFile.Scope
import TagsFile.SyntaxTree
import TagsFile.Table
import TagsFile.Tag.Basic
import TagsFile.Tag.Index
import TagsFile.Tag.Search
import TagsFile.Text.Alphanumeric
import TagsFile.Text.Blank
import TagsFile.Text.Case
import TagsFile.Text.CodePoint
import TagsFile.Text.Digit
import TagsFile.Text.FileName
import TagsFile.Text.Lowercase
import TagsFile.Text.Printable
import TagsFile.Text.Quoted
import TagsFile.Text.Ranges
import TagsFile.Text.Utf8
import TagsFile.Token.Basic
import TagsFile.Token.Cursor
import TagsFile.Token.OfTree
import TagsFile.World
import TagsFile.Proofs.EntryText
import TagsFile.Proofs.FileName
import TagsFile.Proofs.Locate
import TagsFile.Proofs.Changes
import TagsFile.Proofs.EntryPlace
import TagsFile.Proofs.Saving
import TagsFile.Proofs.Clearing
import TagsFile.Proofs.Shelf
import TagsFile.Proofs.Discipline
import TagsFile.Proofs.Layout
import TagsFile.Proofs.Nesting
import TagsFile.Proofs.JsonDepth
import TagsFile.Proofs.Lookup
import TagsFile.Proofs.Wholeness
import TagsFile.Proofs.Resolution
import TagsFile.Proofs.Processing
import TagsFile.Proofs.Transparency
import TagsFile.Proofs.InputOrder
import TagsFile.Proofs.ByteOrder
import TagsFile.Proofs.LineBreaks
import TagsFile.Proofs.FailedRun
import TagsFile.Proofs.PathColumns
import TagsFile.Proofs.ScopeLayers
import TagsFile.Proofs.AnonymousClass
import TagsFile.Proofs.RunFrame
import TagsFile.Proofs.Functions
import TagsFile.Proofs.Visibility
import TagsFile.Proofs.SourceOrder
import TagsFile.Proofs.FailedSource
import TagsFile.Proofs.Scanning
import TagsFile.Proofs.RelativeWay
import TagsFile.Proofs.SearchChain
import TagsFile.Proofs.LineNumbers
import TagsFile.Proofs.Frontier
import TagsFile.Proofs.MemberNames
import TagsFile.Proofs.NormalRecords
import TagsFile.Proofs.Emptying
import TagsFile.Proofs.Neighbours
import TagsFile.Proofs.Collecting
import TagsFile.Proofs.Descent
import TagsFile.Proofs.ProjectFile
import TagsFile.Proofs.SkippedBlocks
