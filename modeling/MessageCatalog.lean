import MessageCatalog.Bytes.Cluster
import MessageCatalog.Bytes.Reader
import MessageCatalog.Catalog.Basic
import MessageCatalog.Catalog.Layout
import MessageCatalog.Catalog.Lookup
import MessageCatalog.Catalog.Query
import MessageCatalog.Catalog.Search
import MessageCatalog.Catalog.Writer
import MessageCatalog.Error
import MessageCatalog.Header.Metadata
import MessageCatalog.Header.PluralForms
import MessageCatalog.Plural.Expr.Basic
import MessageCatalog.Plural.Expr.Eval
import MessageCatalog.Plural.Expr.Parse
import MessageCatalog.Plural.Expr.Render
import MessageCatalog.Plural.Operator
import MessageCatalog.Plural.Token.Basic
import MessageCatalog.Plural.Token.Cursor
import MessageCatalog.Proofs.Bytes.Order
import MessageCatalog.Proofs.Bytes.Segments
import MessageCatalog.Proofs.Bytes.Words
import MessageCatalog.Proofs.Catalog.Bounds
import MessageCatalog.Proofs.Catalog.Image
import MessageCatalog.Proofs.Catalog.Loading
import MessageCatalog.Proofs.Catalog.Lookup
import MessageCatalog.Proofs.Catalog.Selection
import MessageCatalog.Proofs.Catalog.Settings
import MessageCatalog.Proofs.Catalog.Sorted
import MessageCatalog.Proofs.Catalog.Table
import MessageCatalog.Proofs.Catalog.WellFormed
import MessageCatalog.Proofs.Catalog.Writing
import MessageCatalog.Proofs.Fallible
import MessageCatalog.Proofs.Plural.Chains
import MessageCatalog.Proofs.Plural.Completeness
import MessageCatalog.Proofs.Plural.Grammar
import MessageCatalog.Proofs.Plural.Limits
import MessageCatalog.Proofs.Plural.Normal
import MessageCatalog.Proofs.Plural.Parsing
import MessageCatalog.Proofs.Plural.Rendering
import MessageCatalog.Proofs.Plural.Soundness
import MessageCatalog.Proofs.Plural.Steps
import MessageCatalog.Proofs.Plural.Tokens
import MessageCatalog.Proofs.Plural.Unambiguity
import MessageCatalog.Proofs.Text.Utf8
import MessageCatalog.Settings.Basic
import MessageCatalog.Settings.Environment
import MessageCatalog.Settings.Field
import MessageCatalog.Settings.Json
import MessageCatalog.Settings.LogFilter
import MessageCatalog.Settings.Source
import MessageCatalog.Settings.Toml.Document
import MessageCatalog.Settings.Toml.Lexical
import MessageCatalog.Settings.Toml.Number
import MessageCatalog.Settings.Toml.Table
import MessageCatalog.Text.Blank
import MessageCatalog.Text.Cut
import MessageCatalog.Text.Numeral
import MessageCatalog.Text.Scan
import MessageCatalog.Text.Utf8
import MessageCatalog.Proofs.Catalog.Families
import MessageCatalog.Proofs.Catalog.Contents
import MessageCatalog.Proofs.Header.Complete
import MessageCatalog.Proofs.Catalog.Display
import MessageCatalog.Proofs.Plural.Demand
import MessageCatalog.Proofs.Catalog.Context
import MessageCatalog.Proofs.Header.Readers
import MessageCatalog.Proofs.Plural.Overflow
import MessageCatalog.Proofs.Plural.Strict
import MessageCatalog.Proofs.Plural.Blame
import MessageCatalog.Proofs.Plural.Spacing
import MessageCatalog.Proofs.Plural.Calls
import MessageCatalog.Proofs.Header.Confined
import MessageCatalog.Proofs.Header.NormalForm
import MessageCatalog.Proofs.Catalog.Resolution
import MessageCatalog.Proofs.Plural.Script
import MessageCatalog.Proofs.Plural.Moments
import MessageCatalog.Proofs.Plural.Contracts
import MessageCatalog.Proofs.Plural.Promises
import MessageCatalog.Proofs.Plural.Bookkeeping
import MessageCatalog.Proofs.Plural.Progress
import MessageCatalog.Proofs.Bytes.Encoding
import MessageCatalog.Proofs.Plural.Tokenising
import MessageCatalog.Proofs.Settings.Json
import MessageCatalog.Proofs.Settings.Table
import MessageCatalog.Proofs.Settings.Toml
