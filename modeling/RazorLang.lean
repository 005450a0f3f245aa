import RazorLang.CommandLine.Execution
import RazorLang.CommandLine.Invocation
import RazorLang.CommandLine.Usage
import RazorLang.Configuration.Fault
import RazorLang.Configuration.FileKind
import RazorLang.Configuration.HashAlgorithm
import RazorLang.Configuration.LanguageVersion
import RazorLang.Configuration.Options
import RazorLang.Diagnostic
import RazorLang.Digest.Basic
import RazorLang.Digest.Sha1
import RazorLang.Digest.Sha256
import RazorLang.Editor.Buffer
import RazorLang.Editor.Formatting
import RazorLang.Editor.Indentation
import RazorLang.Editor.LanguageKind
import RazorLang.Editor.Position
import RazorLang.Editor.Projection
import RazorLang.Editor.Report
import RazorLang.Engine
import RazorLang.Generation.Body
import RazorLang.Generation.CSharp
import RazorLang.Generation.Element
import RazorLang.Generation.Emission
import RazorLang.Generation.Html
import RazorLang.Generation.Literal
import RazorLang.Generation.Printer
import RazorLang.Grammar.Block
import RazorLang.Grammar.Directive
import RazorLang.Grammar.Expression
import RazorLang.Grammar.Markup
import RazorLang.Grammar.Reader
import RazorLang.Grammar.Transition
import RazorLang.Json.Basic
import RazorLang.Json.Reader
import RazorLang.Main
import RazorLang.Proofs.Editor.Buffer
import RazorLang.Proofs.Editor.Edits
import RazorLang.Proofs.Editor.Formatting
import RazorLang.Proofs.Editor.HtmlReports
import RazorLang.Proofs.Editor.Inclusive
import RazorLang.Proofs.Editor.LanguageKind
import RazorLang.Proofs.Editor.Positions
import RazorLang.Proofs.Editor.Projection
import RazorLang.Proofs.Editor.RazorReports
import RazorLang.Proofs.Editor.Reindentation
import RazorLang.Proofs.Editor.Remapping
import RazorLang.Proofs.Engine
import RazorLang.Proofs.Generation.Balance
import RazorLang.Proofs.Generation.ClassName
import RazorLang.Proofs.Generation.Completeness
import RazorLang.Proofs.Generation.Components
import RazorLang.Proofs.Generation.DesignTime
import RazorLang.Proofs.Generation.Expressions
import RazorLang.Proofs.Generation.Frames
import RazorLang.Proofs.Generation.HelperFields
import RazorLang.Proofs.Generation.Html
import RazorLang.Proofs.Generation.Layout
import RazorLang.Proofs.Generation.Losses
import RazorLang.Proofs.Generation.Mappings
import RazorLang.Proofs.Generation.Operations
import RazorLang.Proofs.Generation.Pages
import RazorLang.Proofs.Generation.Placement
import RazorLang.Proofs.Generation.Seams
import RazorLang.Proofs.Generation.Separation
import RazorLang.Proofs.Generation.Showing
import RazorLang.Proofs.Generation.StringLiteral
import RazorLang.Proofs.Grammar.Block
import RazorLang.Proofs.Grammar.CodeDerivation
import RazorLang.Proofs.Grammar.Completion
import RazorLang.Proofs.Grammar.Derivation
import RazorLang.Proofs.Grammar.Directive
import RazorLang.Proofs.Grammar.DirectiveDerivation
import RazorLang.Proofs.Grammar.Escapes
import RazorLang.Proofs.Grammar.Expression
import RazorLang.Proofs.Grammar.Markup
import RazorLang.Proofs.Grammar.MarkupDerivation
import RazorLang.Proofs.Grammar.MarkupInBlock
import RazorLang.Proofs.Grammar.MarkupPlacing
import RazorLang.Proofs.Grammar.MarkupReports
import RazorLang.Proofs.Grammar.Nesting
import RazorLang.Proofs.Grammar.Placing
import RazorLang.Proofs.Grammar.PlainCSharp
import RazorLang.Proofs.Grammar.PlainMarkup
import RazorLang.Proofs.Grammar.Reader
import RazorLang.Proofs.Grammar.Reports
import RazorLang.Proofs.Grammar.SectionBody
import RazorLang.Proofs.Grammar.Sites
import RazorLang.Proofs.Grammar.StartTag
import RazorLang.Proofs.Grammar.TagDerivation
import RazorLang.Proofs.Grammar.Transition
import RazorLang.Proofs.Sorting
import RazorLang.Proofs.Source.LineIndex
import RazorLang.Proofs.Source.Lines
import RazorLang.Proofs.TagHelper.AttributeNames
import RazorLang.Proofs.TagHelper.Binding
import RazorLang.Proofs.TagHelper.ChildContent
import RazorLang.Proofs.TagHelper.NamespaceScope
import RazorLang.Proofs.TagHelper.Relabeling
import RazorLang.Proofs.TagHelper.Selection
import RazorLang.Proofs.Text.Bytes
import RazorLang.Proofs.Text.Nesting
import RazorLang.Proofs.Text.Splitting
import RazorLang.Proofs.Token.Boundary
import RazorLang.Proofs.Token.CSharp
import RazorLang.Proofs.Token.Flaws
import RazorLang.Proofs.Token.Html
import RazorLang.Proofs.Token.Lexeme
import RazorLang.Proofs.Token.Literals
import RazorLang.Proofs.Token.Lossless
import RazorLang.Proofs.Token.Restart
import RazorLang.Proofs.Token.Run
import RazorLang.Proofs.Tree.Arrangement
import RazorLang.Proofs.Tree.ClosingDelimiters
import RazorLang.Proofs.Tree.Contiguity
import RazorLang.Proofs.Tree.Coverage
import RazorLang.Proofs.Tree.Delimiters
import RazorLang.Proofs.Tree.Elements
import RazorLang.Proofs.Tree.Faults
import RazorLang.Proofs.Tree.HelperLines
import RazorLang.Proofs.Tree.Leads
import RazorLang.Proofs.Tree.Nodes
import RazorLang.Proofs.Tree.Parsed
import RazorLang.Proofs.Tree.Spelling
import RazorLang.Proofs.Tree.Tags
import RazorLang.Proofs.Tree.Tiling
import RazorLang.Proofs.Workspace.Baseline
import RazorLang.Proofs.Workspace.Batching
import RazorLang.Proofs.Workspace.Caching
import RazorLang.Proofs.Workspace.Change
import RazorLang.Proofs.Workspace.Coherence
import RazorLang.Proofs.Workspace.Convergence
import RazorLang.Proofs.Workspace.Delivery
import RazorLang.Proofs.Workspace.Frame
import RazorLang.Proofs.Workspace.History
import RazorLang.Proofs.Workspace.Ignored
import RazorLang.Proofs.Workspace.Importers
import RazorLang.Proofs.Workspace.Imports
import RazorLang.Proofs.Workspace.Loading
import RazorLang.Proofs.Workspace.Membership
import RazorLang.Proofs.Workspace.Notification
import RazorLang.Proofs.Workspace.OpenDocuments
import RazorLang.Proofs.Workspace.Output
import RazorLang.Proofs.Workspace.Passage
import RazorLang.Proofs.Workspace.PathMap
import RazorLang.Proofs.Workspace.Permission
import RazorLang.Proofs.Workspace.Promptness
import RazorLang.Proofs.Workspace.Publication
import RazorLang.Proofs.Workspace.Reachability
import RazorLang.Proofs.Workspace.Renewal
import RazorLang.Proofs.Workspace.Replacement
import RazorLang.Proofs.Workspace.Request
import RazorLang.Proofs.Workspace.Retention
import RazorLang.Proofs.Workspace.Scheduling
import RazorLang.Proofs.Workspace.SettledVersions
import RazorLang.Proofs.Workspace.Sharing
import RazorLang.Proofs.Workspace.Succession
import RazorLang.Proofs.Workspace.TextVersions
import RazorLang.Proofs.Workspace.Transition
import RazorLang.Proofs.Workspace.Versioning
import RazorLang.Proofs.Workspace.Visibility
import RazorLang.Source.Document
import RazorLang.Source.Location
import RazorLang.TagHelper.Basic
import RazorLang.TagHelper.Binding
import RazorLang.TagHelper.Record
import RazorLang.TagHelper.Resolution
import RazorLang.Text.Alphabetic
import RazorLang.Text.Basic
import RazorLang.Text.Hidden
import RazorLang.Text.Numeric
import RazorLang.Text.Quoted
import RazorLang.Token.Basic
import RazorLang.Token.CSharp
import RazorLang.Token.Html
import RazorLang.Token.Keyword
import RazorLang.Token.Lexeme
import RazorLang.Token.Mode
import RazorLang.Token.Record
import RazorLang.Token.Symbol
import RazorLang.Token.Tokenizer
import RazorLang.Tree.Basic
import RazorLang.Tree.Directive
import RazorLang.Tree.Document
import RazorLang.Workspace.AssemblyCache
import RazorLang.Workspace.Basic
import RazorLang.Workspace.Batching
import RazorLang.Workspace.DocumentState
import RazorLang.Workspace.Fault
import RazorLang.Workspace.Host
import RazorLang.Workspace.Loader
import RazorLang.Workspace.Memory
import RazorLang.Workspace.Notification
import RazorLang.Workspace.Output
import RazorLang.Workspace.PathMap
import RazorLang.Workspace.ProjectState
import RazorLang.Workspace.Publication
import RazorLang.Workspace.Version
import RazorLang.Workspace.WorkQueue
