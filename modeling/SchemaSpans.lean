import SchemaSpans.Text.Bytes
import SchemaSpans.Text.Ascii
import SchemaSpans.Text.Position
import SchemaSpans.Text.Shown
import SchemaSpans.Number.Double
import SchemaSpans.Number.Shortest
import SchemaSpans.Number.Basic
import SchemaSpans.Number.Literal
import SchemaSpans.Json.Basic
import SchemaSpans.Json.Equality
import SchemaSpans.Json.Written
import SchemaSpans.Reader.Cause
import SchemaSpans.Reader.Basic
import SchemaSpans.Reader.Quoted
import SchemaSpans.Reader.Numeral
import SchemaSpans.Reader.Token
import SchemaSpans.Reader.Bracket
import SchemaSpans.Reader.Kept
import SchemaSpans.Reader.Skip
import SchemaSpans.Descriptor.Message
import SchemaSpans.Descriptor.File
import SchemaSpans.Descriptor.Edit
import SchemaSpans.Schema.Basic
import SchemaSpans.Schema.Draft
import SchemaSpans.Schema.Reader
import SchemaSpans.Schema.Written
import SchemaSpans.Schema.Text
import SchemaSpans.Error
import SchemaSpans.Path.Numbers
import SchemaSpans.Path.Basic
import SchemaSpans.Location.Span
import SchemaSpans.Location.Statement
import SchemaSpans.Location.Log
import SchemaSpans.Location.Lookup
import SchemaSpans.Loading.Workspace
import SchemaSpans.Loading.Set
import SchemaSpans.Session.Basic
import SchemaSpans.Session.Step
import SchemaSpans.Proofs.Text.Encoding
import SchemaSpans.Proofs.Number.Decimal
import SchemaSpans.Proofs.Json.Ordered
import SchemaSpans.Proofs.Reader.Reads
import SchemaSpans.Proofs.Reader.Integer
import SchemaSpans.Proofs.Reader.Quoted
import SchemaSpans.Proofs.Json.Bytes
import SchemaSpans.Proofs.Json.Nesting
import SchemaSpans.Proofs.Reader.Sequence
import SchemaSpans.Proofs.Reader.Kept
import SchemaSpans.Proofs.Reader.Yields
import SchemaSpans.Proofs.Schema.Table
import SchemaSpans.Proofs.Schema.ReadBack
import SchemaSpans.Proofs.Schema.WellFormed
import SchemaSpans.Proofs.Session.Change
import SchemaSpans.Proofs.Session.Reload
import SchemaSpans.Proofs.Location.First
import SchemaSpans.Proofs.Location.Accessors
import SchemaSpans.Proofs.Location.Relevant
import SchemaSpans.Proofs.Reader.Accept
import SchemaSpans.Proofs.Grammar.Spacing
import SchemaSpans.Proofs.Grammar.Quoted
import SchemaSpans.Proofs.Grammar.Spelling
import SchemaSpans.Proofs.Grammar.Number
import SchemaSpans.Proofs.Grammar.Tree
import SchemaSpans.Proofs.Grammar.Sequence
import SchemaSpans.Proofs.Grammar.Start
import SchemaSpans.Proofs.Grammar.Skip
import SchemaSpans.Proofs.List.Parts
import SchemaSpans.Proofs.Grammar.Kept
import SchemaSpans.Proofs.Grammar.Meaning
import SchemaSpans.Proofs.Schema.Evaluation
import SchemaSpans.Proofs.Schema.Layout
import SchemaSpans.Proofs.Schema.Members
import SchemaSpans.Proofs.Schema.Options
import SchemaSpans.Proofs.Schema.Rewriting
import SchemaSpans.Proofs.Loading.Parts
import SchemaSpans.Proofs.Loading.Agreement
import SchemaSpans.Proofs.Session.Footprint
import SchemaSpans.Proofs.Reader.Local
import SchemaSpans.Proofs.Reader.Allowance
import SchemaSpans.Proofs.Schema.Fault
import SchemaSpans.Proofs.Schema.Ending
import SchemaSpans.Proofs.Schema.Unknown
import SchemaSpans.Proofs.Schema.Place
import SchemaSpans.Proofs.Schema.Duplicate
import SchemaSpans.Proofs.Schema.ListForm
import SchemaSpans.Proofs.Grammar.Integer
import SchemaSpans.Proofs.Schema.Integer
import SchemaSpans.Proofs.Location.Entry
import SchemaSpans.Proofs.Path.Valid
import SchemaSpans.Proofs.Descriptor.Edits
import SchemaSpans.Proofs.Location.Printed
import SchemaSpans.Proofs.Path.Printed
