import SearchComposer.Block.Basic
import SearchComposer.Block.Refusal
import SearchComposer.Block.Search
import SearchComposer.Block.Supply
import SearchComposer.Block.Walk
import SearchComposer.Condition.Comparator
import SearchComposer.Condition.Input
import SearchComposer.Condition.Value
import SearchComposer.Condition.Viewer
import SearchComposer.Drafts
import SearchComposer.Hits
import SearchComposer.Json.Basic
import SearchComposer.Json.Literal
import SearchComposer.Json.Printer
import SearchComposer.Json.Reader
import SearchComposer.Json.Token
import SearchComposer.Number.Basic
import SearchComposer.Number.Binary64
import SearchComposer.Number.Decimal
import SearchComposer.Number.Power
import SearchComposer.Number.Shortest
import SearchComposer.Outline.Basic
import SearchComposer.Outline.Forest
import SearchComposer.Outline.Shape
import SearchComposer.Outline.Walk
import SearchComposer.Proofs.Block.Alike
import SearchComposer.Proofs.Block.Change
import SearchComposer.Proofs.Block.Craft
import SearchComposer.Proofs.Block.Folds
import SearchComposer.Proofs.Block.Path
import SearchComposer.Proofs.Block.Place
import SearchComposer.Proofs.Block.Supply
import SearchComposer.Proofs.Block.Walk
import SearchComposer.Proofs.Condition
import SearchComposer.Proofs.Drafts
import SearchComposer.Proofs.Encoding
import SearchComposer.Proofs.Hits
import SearchComposer.Proofs.Json.Entries
import SearchComposer.Proofs.Json.Printer
import SearchComposer.Proofs.Json.Reader
import SearchComposer.Proofs.Json.Reordered
import SearchComposer.Proofs.Number.Literal
import SearchComposer.Proofs.Number.Rounding
import SearchComposer.Proofs.Outline.Chains
import SearchComposer.Proofs.Outline.Leaves
import SearchComposer.Proofs.Outline.Merge
import SearchComposer.Proofs.Outline.Walk
import SearchComposer.Proofs.Request.Coverage
import SearchComposer.Proofs.Request.Meaning
import SearchComposer.Proofs.Request.Page
import SearchComposer.Proofs.Request.Range
import SearchComposer.Proofs.Request.Reading
import SearchComposer.Proofs.Request.Rearranged
import SearchComposer.Proofs.Request.Searched
import SearchComposer.Proofs.Request.Shown
import SearchComposer.Proofs.Request.Span
import SearchComposer.Proofs.Request.Test
import SearchComposer.Proofs.Schema.Definitions
import SearchComposer.Proofs.Schema.Listed
import SearchComposer.Proofs.Schema.Lookup
import SearchComposer.Proofs.Schema.Mapping
import SearchComposer.Proofs.Schema.Refused
import SearchComposer.Proofs.Schema.Reordered
import SearchComposer.Proofs.Schema.Shape
import SearchComposer.Proofs.Schema.Walk
import SearchComposer.Proofs.Session.Added
import SearchComposer.Proofs.Session.Alike
import SearchComposer.Proofs.Session.Cascade
import SearchComposer.Proofs.Session.Copied
import SearchComposer.Proofs.Session.Desk
import SearchComposer.Proofs.Session.Edit
import SearchComposer.Proofs.Session.Editing
import SearchComposer.Proofs.Session.Refused
import SearchComposer.Proofs.Session.Sound
import SearchComposer.Proofs.Steps
import SearchComposer.Proofs.Text.Numeral
import SearchComposer.Proofs.Time.Calendar
import SearchComposer.Proofs.Time.Read
import SearchComposer.Proofs.Time.Summer
import SearchComposer.Proofs.Time.Written
import SearchComposer.Proofs.Time.Zone
import SearchComposer.Proofs.Tree.Bench
import SearchComposer.Proofs.Tree.Conditions
import SearchComposer.Proofs.Tree.Conserved
import SearchComposer.Proofs.Tree.Edit
import SearchComposer.Proofs.Tree.Local
import SearchComposer.Proofs.Tree.Offered
import SearchComposer.Proofs.Tree.Sound
import SearchComposer.Proofs.Tree.Spliced
import SearchComposer.Proofs.Tree.Undo
import SearchComposer.Request.Basic
import SearchComposer.Request.Clause
import SearchComposer.Request.Page
import SearchComposer.Request.Ranking
import SearchComposer.Request.Span
import SearchComposer.Schema.Basic
import SearchComposer.Schema.DataType
import SearchComposer.Schema.Mapping
import SearchComposer.Schema.Property
import SearchComposer.Schema.Reserved
import SearchComposer.Schema.Walk
import SearchComposer.Session
import SearchComposer.Settings.Basic
import SearchComposer.Settings.Document
import SearchComposer.Text.Blank
import SearchComposer.Text.Numeral
import SearchComposer.Time.Calendar
import SearchComposer.Time.Instant
import SearchComposer.Time.Written
import SearchComposer.Time.Zone
import SearchComposer.Tree.Basic
import SearchComposer.Tree.Edit
import SearchComposer.Yaml.Basic
import SearchComposer.Yaml.Cursor
import SearchComposer.Yaml.Lexer
import SearchComposer.Yaml.Reader
import SearchComposer.Yaml.Scalar
import SearchComposer.Yaml.Token
import SearchComposer.Outline.Walk
