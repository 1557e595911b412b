import StepLink.CommandLine
import StepLink.Config
import StepLink.Definition.Basic
import StepLink.Definition.Decorator
import StepLink.Feature.Inheritance
import StepLink.Feature.Occurrence
import StepLink.Feature.PartialStep
import StepLink.Feature.Scanner
import StepLink.Feature.StepLine
import StepLink.Glob.Basic
import StepLink.Glob.Filter
import StepLink.Glob.Source
import StepLink.Index.Buckets
import StepLink.Index.Call
import StepLink.Index.Definitions
import StepLink.Index.Lru
import StepLink.Index.State
import StepLink.Index.Usages
import StepLink.Index.Warning
import StepLink.Json.Basic
import StepLink.Json.Parser
import StepLink.Json.Printer
import StepLink.Keyword
import StepLink.Path
import StepLink.Pattern.Error
import StepLink.Pattern.Field
import StepLink.Pattern.Lexer
import StepLink.Pattern.Matcher
import StepLink.Pattern.Snippet
import StepLink.Pattern.Token
import StepLink.Proofs.Definition.Place
import StepLink.Proofs.Feature.Inheritance
import StepLink.Proofs.Feature.Place
import StepLink.Proofs.Index.Batch
import StepLink.Proofs.Index.Cache
import StepLink.Proofs.Index.Effect
import StepLink.Proofs.Index.Freshness
import StepLink.Proofs.Index.Invariant
import StepLink.Proofs.Index.Item
import StepLink.Proofs.Index.Moment
import StepLink.Proofs.Index.Rebuild
import StepLink.Proofs.Index.Settling
import StepLink.Proofs.Index.Traffic
import StepLink.Proofs.Index.Turn
import StepLink.Proofs.Index.Version
import StepLink.Proofs.Lookup
import StepLink.Proofs.Path
import StepLink.Proofs.Pattern.Expression
import StepLink.Proofs.Pattern.Meaning
import StepLink.Proofs.Pattern.Snippet
import StepLink.Proofs.Query.Block
import StepLink.Proofs.Query.Cache
import StepLink.Proofs.Query.Navigation
import StepLink.Proofs.Workspace.Listing
import StepLink.Protocol.Answer
import StepLink.Protocol.Basic
import StepLink.Protocol.Decoder
import StepLink.Protocol.Request
import StepLink.Query.Completion
import StepLink.Query.Diagnostics
import StepLink.Query.Lookup
import StepLink.Query.References
import StepLink.Regex.Basic
import StepLink.Regex.CharSet
import StepLink.Regex.Matching
import StepLink.Regex.Source
import StepLink.Rpc.Connection
import StepLink.Rpc.Frame
import StepLink.Rpc.Message
import StepLink.Server.Job
import StepLink.Server.Reply
import StepLink.Server.Run
import StepLink.Server.State
import StepLink.Settings
import StepLink.Text.Basic
import StepLink.Text.Blank
import StepLink.Text.Bytes
import StepLink.Text.Digit
import StepLink.Text.Fold
import StepLink.Text.Hex
import StepLink.Text.Lines
import StepLink.Text.Lowercase
import StepLink.Text.Spans
import StepLink.Text.Units
import StepLink.Text.Word
import StepLink.Uri
import StepLink.Workspace.Change
import StepLink.Workspace.Disk
import StepLink.Workspace.Documents
import StepLink.Workspace.Event
import StepLink.Main
import StepLink.Proofs.Index.Coalescing
import StepLink.Proofs.Index.Exclusion
import StepLink.Proofs.Glob.Trailing
import StepLink.Proofs.Workspace.Pruning
import StepLink.Proofs.Index.Handling
import StepLink.Proofs.Workspace.Change
import StepLink.Proofs.Index.Upkeep
import StepLink.Proofs.Index.OpenDocuments
import StepLink.Proofs.Index.Attendance
import StepLink.Proofs.Server.Publication
import StepLink.Proofs.Server.Occasion
import StepLink.Proofs.Server.Buffers
import StepLink.Proofs.Server.Display
import StepLink.Proofs.Index.Admission
import StepLink.Proofs.Query.Diagnostics
import StepLink.Proofs.Index.Search
import StepLink.Proofs.Index.Telling
import StepLink.Proofs.Index.Notification
import StepLink.Proofs.Server.Configuration
import StepLink.Proofs.Feature.Antecedent
import StepLink.Proofs.Feature.DocString
import StepLink.Proofs.Query.DocString
import StepLink.Proofs.Index.Below
import StepLink.Proofs.Query.Completion
import StepLink.Proofs.Query.OffStep
import StepLink.Proofs.Query.Typing
import StepLink.Proofs.Definition.Decorator
import StepLink.Proofs.Pattern.Grammar
import StepLink.Proofs.Feature.Selection
import StepLink.Proofs.Query.Usages
import StepLink.Proofs.Server.Replacement
import StepLink.Proofs.Index.Disposal
import StepLink.Proofs.Server.Ranking
import StepLink.Proofs.Text.Bytes
import StepLink.Proofs.Text.Columns
import StepLink.Proofs.Pattern.Bytewise
import StepLink.Proofs.Pattern.Lexer
import StepLink.Proofs.Pattern.Fault
