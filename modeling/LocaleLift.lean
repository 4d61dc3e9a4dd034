import LocaleLift.Arguments
import LocaleLift.Assoc
import LocaleLift.Component.Block
import LocaleLift.Component.Localize
import LocaleLift.Config
import LocaleLift.Diagnostic
import LocaleLift.Dictionary
import LocaleLift.Diff.Hunk
import LocaleLift.Diff.Script
import LocaleLift.Edit
import LocaleLift.Extract
import LocaleLift.Failure
import LocaleLift.Files.Read
import LocaleLift.Files.Tree
import LocaleLift.Files.Write
import LocaleLift.Glob
import LocaleLift.Json.Compact
import LocaleLift.Json.Read
import LocaleLift.Json.Value
import LocaleLift.Json.Write
import LocaleLift.Literal
import LocaleLift.Log.Logger
import LocaleLift.Log.Program
import LocaleLift.Log.Record
import LocaleLift.Log.Time
import LocaleLift.Main
import LocaleLift.Markup.Attribute
import LocaleLift.Markup.Token
import LocaleLift.Markup.Words
import LocaleLift.Path
import LocaleLift.Registry
import LocaleLift.Run.Command
import LocaleLift.Run.State
import LocaleLift.Run.Walk
import LocaleLift.Script.Binding
import LocaleLift.Script.Calls
import LocaleLift.Script.Grammar
import LocaleLift.Script.Grammar.Expressions
import LocaleLift.Script.Grammar.Phrase
import LocaleLift.Script.Grammar.Statements
import LocaleLift.Script.Grammar.Types
import LocaleLift.Script.Lexeme
import LocaleLift.Script.Literals
import LocaleLift.Script.Localize
import LocaleLift.Script.Parser
import LocaleLift.Script.Rule
import LocaleLift.Script.Tree
import LocaleLift.SourceUnit
import LocaleLift.Text
import LocaleLift.Text.Case
import LocaleLift.Text.Han
import LocaleLift.Text.Hex
import LocaleLift.Text.Lines
import LocaleLift.Text.Number
import LocaleLift.Text.Parts
import LocaleLift.Text.Printable
import LocaleLift.Text.Quoted
import LocaleLift.Text.Space
import LocaleLift.Text.Utf8
import LocaleLift.Warning
import LocaleLift.Proofs.Registry.Filing
import LocaleLift.Proofs.Registry.History
import LocaleLift.Proofs.SourceUnit.Isolation
import LocaleLift.Proofs.Text.Boundary
import LocaleLift.Proofs.Text.Draft
import LocaleLift.Proofs.Script.Parser
import LocaleLift.Proofs.Script.Growth
import LocaleLift.Proofs.Script.Grammar
import LocaleLift.Proofs.Edit.Spread
import LocaleLift.Proofs.Script.Spread
import LocaleLift.Proofs.Literal.Escape
import LocaleLift.Proofs.Extract
import LocaleLift.Proofs.Script.Literals
import LocaleLift.Proofs.Text.Encodable
import LocaleLift.Proofs.Script.Settle
import LocaleLift.Proofs.Markup.Attribute
import LocaleLift.Proofs.Markup.Words
import LocaleLift.Proofs.Component.Layout
import LocaleLift.Proofs.Component.Splice
import LocaleLift.Proofs.Component.Frame
import LocaleLift.Proofs.Component.Settle
import LocaleLift.Proofs.SourceUnit.Settle
import LocaleLift.Proofs.Script.Localized
import LocaleLift.Proofs.Markup.Localized
import LocaleLift.Proofs.Component.Localized
import LocaleLift.Proofs.SourceUnit.Frame
import LocaleLift.Proofs.SourceUnit.Sections
import LocaleLift.Proofs.SourceUnit.Rerun
import LocaleLift.Proofs.Script.Due
import LocaleLift.Proofs.Edit.Weave
import LocaleLift.Proofs.Script.Apart
import LocaleLift.Proofs.Text.Entry
import LocaleLift.Proofs.Literal.Verbatim
import LocaleLift.Proofs.Script.Entries
import LocaleLift.Proofs.Markup.Entries
import LocaleLift.Proofs.SourceUnit.Entries
import LocaleLift.Proofs.SourceUnit.Hanless
import LocaleLift.Proofs.Text.Search
import LocaleLift.Proofs.Markup.Closing
import LocaleLift.Proofs.Markup.Mark
import LocaleLift.Proofs.Markup.Chunk
import LocaleLift.Proofs.Markup.Woven
import LocaleLift.Proofs.Markup.Settle
import LocaleLift.Proofs.Script.Quotes
import LocaleLift.Proofs.Markup.Quotes
import LocaleLift.Proofs.Markup.Inline
import LocaleLift.Proofs.Markup.Frame
import LocaleLift.Proofs.Component.Sections
import LocaleLift.Proofs.Script.Strings
import LocaleLift.Proofs.Markup.Strings
import LocaleLift.Proofs.Markup.Agreement
import LocaleLift.Proofs.Script.Match
import LocaleLift.Proofs.Script.Operand
import LocaleLift.Proofs.Script.Lookup
import LocaleLift.Proofs.After
import LocaleLift.Proofs.Files.Tree
import LocaleLift.Proofs.Files.Write
import LocaleLift.Proofs.Log.Session
import LocaleLift.Proofs.Dictionary
import LocaleLift.Proofs.Run.State
import LocaleLift.Proofs.Run.Unit
import LocaleLift.Proofs.Run.Walk
import LocaleLift.Proofs.Run.Prepare
import LocaleLift.Proofs.Run.Complete
import LocaleLift.Proofs.Run.Sources
import LocaleLift.Proofs.Run.Mirror
import LocaleLift.Proofs.Run.Keeps
import LocaleLift.Proofs.Run.DryRun
import LocaleLift.Proofs.Run.Copy
import LocaleLift.Proofs.Run.Broken
import LocaleLift.Proofs.Json.ReadBack
import LocaleLift.Proofs.Files.Reach
import LocaleLift.Proofs.Dictionary.ReadBack
import LocaleLift.Proofs.Literal.Spelling
import LocaleLift.Proofs.Literal.Seam
import LocaleLift.Proofs.Literal.Quote
import LocaleLift.Proofs.Literal.Template
import LocaleLift.Proofs.Edit.Simultaneous
import LocaleLift.Proofs.Literal.Value
import LocaleLift.Proofs.Script.Value
import LocaleLift.Proofs.Script.Confined
import LocaleLift.Proofs.Markup.Delimited
import LocaleLift.Proofs.Markup.Wording
import LocaleLift.Proofs.Markup.OpeningTag
import LocaleLift.Proofs.Component.Attributes
import LocaleLift.Proofs.Component.Outline
import LocaleLift.Proofs.Markup.Literals
import LocaleLift.Proofs.Files.Whole
import LocaleLift.Proofs.Text.Split
import LocaleLift.Proofs.Glob
import LocaleLift.Proofs.Run.Output
import LocaleLift.Proofs.Config
import LocaleLift.Proofs.Run.Machine
import LocaleLift.Proofs.Run.Tally
import LocaleLift.Proofs.Diff.Script
import LocaleLift.Proofs.Diff.Patch
import LocaleLift.Proofs.Markup.Interpolation
import LocaleLift.Proofs.Log.Program
