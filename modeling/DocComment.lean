import DocComment.Text
import DocComment.Tag
import DocComment.TypeUnion
import DocComment.Keyed
import DocComment.Json
import DocComment.Problem
import DocComment.Line
import DocComment.Block
import DocComment.BlockFields
import DocComment.Draft
import DocComment.SourceLines
import DocComment.Source
import DocComment.StableSort
import DocComment.Outline
import DocComment.Walk
import DocComment.Visibility
import DocComment.Export
import DocComment.Markup
import DocComment.Menu
import DocComment.Content
import DocComment.Page
import DocComment.Format
import DocComment.PathName
import DocComment.FileTree
import DocComment.Pattern
import DocComment.Inputs
import DocComment.Options
import DocComment.Merge
import DocComment.Command
import DocComment.Main
import DocComment.Proofs.TextWords
import DocComment.Proofs.KeyedOrder
import DocComment.Proofs.OutlineFiling
import DocComment.Proofs.OutlineBatch
import DocComment.Proofs.WalkNodes
import DocComment.Proofs.OutlineRegister
import DocComment.Proofs.TagMarks
import DocComment.Proofs.DraftGroups
import DocComment.Proofs.AttachedLines
import DocComment.Proofs.SourceSegments
import DocComment.Proofs.LineGrammar
import DocComment.Proofs.SiblingOrder
import DocComment.Proofs.VisibleNodes
import DocComment.Proofs.HiddenPruning
import DocComment.Proofs.OutlineNumbers
import DocComment.Proofs.WalkPaths
import DocComment.Proofs.OwnTags
import DocComment.Proofs.PageMarkup
import DocComment.Proofs.BatchSplitting
import DocComment.Proofs.OutlineShape
import DocComment.Proofs.SkippedSources
import DocComment.Proofs.InsertionOrder
import DocComment.Proofs.PageFilling
import DocComment.Proofs.ScanSteps
import DocComment.Proofs.LineEnds
import DocComment.Proofs.SourceConcatenation
import DocComment.Proofs.SourceBytes
import DocComment.Proofs.ExportMirror
import DocComment.Proofs.ParsedSources
import DocComment.Proofs.KeepAndReplace
import DocComment.Proofs.MenuEntries
import DocComment.Proofs.MenuMarkup
import DocComment.Proofs.MenuTargets
import DocComment.Proofs.NestedModules
import DocComment.Proofs.OutlinePlaces
import DocComment.Proofs.WrittenFiles
import DocComment.Proofs.PrintedAndWritten
import DocComment.Proofs.WalkOrder
import DocComment.Proofs.PassedOver
import DocComment.Proofs.StrictSiblings
import DocComment.Proofs.BlockIdentity
import DocComment.Proofs.TypeAnnotations
import DocComment.Proofs.FieldOccurrences
import DocComment.Proofs.RichTextPieces
import DocComment.Proofs.CallBrackets
import DocComment.Proofs.EscapedText
import DocComment.Proofs.ParentNodes
import DocComment.Proofs.LinksAndSpans
import DocComment.Proofs.LinkRecognition
import DocComment.Proofs.TagNesting
import DocComment.Proofs.SpanPlaces
import DocComment.Proofs.Entities
import DocComment.Proofs.PathOrder
import DocComment.Proofs.DirectoryListings
import DocComment.Proofs.InputFiles
import DocComment.Proofs.CommentLines
import DocComment.Proofs.ExampleLines
