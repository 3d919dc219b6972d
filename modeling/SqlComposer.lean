import SqlComposer.Calendar.Date
import SqlComposer.Calendar.Reading
import SqlComposer.Calendar.Timestamp
import SqlComposer.ColumnRef
import SqlComposer.ColumnType
import SqlComposer.CommandLine
import SqlComposer.CommandLine.Report
import SqlComposer.Compiler
import SqlComposer.Decimal.Layout
import SqlComposer.Decimal.Reading
import SqlComposer.Decimal.Shortest
import SqlComposer.Dialect
import SqlComposer.Draft
import SqlComposer.Expr
import SqlComposer.Expr.Atoms
import SqlComposer.Expr.Evaluate
import SqlComposer.Fault
import SqlComposer.Json.Number
import SqlComposer.Json.Text
import SqlComposer.Main
import SqlComposer.Part
import SqlComposer.Part.Render
import SqlComposer.Proofs.Draft.Carried
import SqlComposer.Proofs.Draft.Closed
import SqlComposer.Proofs.Draft.Distinct
import SqlComposer.Proofs.Draft.Edit
import SqlComposer.Proofs.Draft.Parameters
import SqlComposer.Proofs.Draft.Refill
import SqlComposer.Proofs.Draft.Removal
import SqlComposer.Proofs.Draft.Strings
import SqlComposer.Proofs.Draft.Supplied
import SqlComposer.Proofs.Expr.Arithmetic
import SqlComposer.Proofs.Expr.Condition
import SqlComposer.Proofs.Expr.NullTest
import SqlComposer.Proofs.Expr.Operand
import SqlComposer.Proofs.Expr.Row
import SqlComposer.Proofs.Expr.Strings
import SqlComposer.Proofs.Expr.Thunks
import SqlComposer.Proofs.Expr.Unqualified
import SqlComposer.Proofs.Expr.Written
import SqlComposer.Proofs.Outcome
import SqlComposer.Proofs.Outline
import SqlComposer.Proofs.Outline.Bound
import SqlComposer.Proofs.Outline.Clean
import SqlComposer.Proofs.Outline.Insertion
import SqlComposer.Proofs.Outline.Literals
import SqlComposer.Proofs.Outline.Picked
import SqlComposer.Proofs.Outline.Query
import SqlComposer.Proofs.Outline.Strings
import SqlComposer.Proofs.Outline.Template
import SqlComposer.Proofs.Outline.Text
import SqlComposer.Proofs.Outline.Tokens
import SqlComposer.Proofs.Part.Stray
import SqlComposer.Proofs.Schema
import SqlComposer.Proofs.Select.Arranged
import SqlComposer.Proofs.Select.Assembled
import SqlComposer.Proofs.Select.Bound
import SqlComposer.Proofs.Select.Call
import SqlComposer.Proofs.Select.Clauses
import SqlComposer.Proofs.Select.Clean
import SqlComposer.Proofs.Select.Closed
import SqlComposer.Proofs.Select.Columns
import SqlComposer.Proofs.Select.Connective
import SqlComposer.Proofs.Select.Fetch
import SqlComposer.Proofs.Select.Laid
import SqlComposer.Proofs.Select.Lasting
import SqlComposer.Proofs.Select.Ordering
import SqlComposer.Proofs.Select.Orderly
import SqlComposer.Proofs.Select.Owner
import SqlComposer.Proofs.Select.Plan
import SqlComposer.Proofs.Select.Qualified
import SqlComposer.Proofs.Select.Resolved
import SqlComposer.Proofs.Select.Restriction
import SqlComposer.Proofs.Select.Strings
import SqlComposer.Proofs.Select.Tables
import SqlComposer.Proofs.Select.Traced
import SqlComposer.Proofs.Session.UnitOfWork
import SqlComposer.Proofs.Statement.Agreement
import SqlComposer.Proofs.Statement.Aligned
import SqlComposer.Proofs.Statement.Declaration
import SqlComposer.Proofs.Statement.Dialects
import SqlComposer.Proofs.Statement.Drawn
import SqlComposer.Proofs.Statement.Filters
import SqlComposer.Proofs.Statement.Identity
import SqlComposer.Proofs.Statement.Instance
import SqlComposer.Proofs.Statement.Key
import SqlComposer.Proofs.Statement.Outlined
import SqlComposer.Proofs.Statement.Portable
import SqlComposer.Proofs.Statement.Procedure
import SqlComposer.Proofs.Statement.Programs
import SqlComposer.Proofs.Statement.Restriction
import SqlComposer.Proofs.Statement.Run
import SqlComposer.Proofs.Statement.Spaced
import SqlComposer.Proofs.Statement.Strings
import SqlComposer.Proofs.Statement.Survival
import SqlComposer.Proofs.Statement.Uniform
import SqlComposer.Proofs.Statement.Unqualified
import SqlComposer.Proofs.Supply
import SqlComposer.Proofs.Table.Collected
import SqlComposer.Proofs.Table.Columns
import SqlComposer.Proofs.Table.Commas
import SqlComposer.Proofs.Table.Create
import SqlComposer.Proofs.Table.Definition
import SqlComposer.Proofs.Table.Finishers
import SqlComposer.Proofs.Table.Flat
import SqlComposer.Proofs.Table.Items
import SqlComposer.Proofs.Table.Kinds
import SqlComposer.Proofs.Table.Made
import SqlComposer.Proofs.Table.Placed
import SqlComposer.Proofs.Table.Renaming
import SqlComposer.Proofs.Table.Settled
import SqlComposer.Proofs.Table.Written
import SqlComposer.Proofs.Text
import SqlComposer.Proofs.Text.Fragments
import SqlComposer.Proofs.Text.Joined
import SqlComposer.Proofs.Text.Lexer
import SqlComposer.Proofs.Text.Spelled
import SqlComposer.Proofs.Text.Unquoted
import SqlComposer.Proofs.Tree
import SqlComposer.Proofs.Tree.Flat
import SqlComposer.Proofs.Tree.LastGroup
import SqlComposer.Proofs.Tree.Place
import SqlComposer.Proofs.Tree.Renamed
import SqlComposer.Proofs.Tree.Sequence
import SqlComposer.Proofs.Tree.Unqualified
import SqlComposer.Proofs.Value.Literal
import SqlComposer.Proofs.Value.Memo
import SqlComposer.Schema
import SqlComposer.Session
import SqlComposer.Settings
import SqlComposer.Statement.Delete
import SqlComposer.Statement.Insert
import SqlComposer.Statement.Procedure
import SqlComposer.Statement.Select
import SqlComposer.Statement.Table
import SqlComposer.Statement.Update
import SqlComposer.Surroundings
import SqlComposer.TableFile
import SqlComposer.Tag
import SqlComposer.Text
import SqlComposer.Toml
import SqlComposer.Toml.Document
import SqlComposer.Toml.Growth
import SqlComposer.Toml.Quoted
import SqlComposer.Toml.Scalar
import SqlComposer.Tree
import SqlComposer.Uuid
import SqlComposer.Value
import SqlComposer.Value.Deferred
import SqlComposer.Value.Json
import SqlComposer.View
