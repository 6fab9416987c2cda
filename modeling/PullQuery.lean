import PullQuery.Text
import PullQuery.Number.Decimal
import PullQuery.Number.Binary
import PullQuery.Number.Binary.OfDecimal
import PullQuery.Number.Shortest
import PullQuery.Number.Word
import PullQuery.Calendar.Date
import PullQuery.Calendar.Zone
import PullQuery.Calendar.Delta
import PullQuery.Calendar.Clock
import PullQuery.Calendar.DateTime
import PullQuery.Calendar.Lexical
import PullQuery.Duration
import PullQuery.Duration.Lexical
import PullQuery.Item.Type
import PullQuery.Error
import PullQuery.Fields
import PullQuery.Json.Basic
import PullQuery.Json.Quoted
import PullQuery.Json.Reader
import PullQuery.Json.Writer
import PullQuery.Item
import PullQuery.Item.Text
import PullQuery.Item.Ingest
import PullQuery.Arithmetic
import PullQuery.Comparison
import PullQuery.Function
import PullQuery.Source
import PullQuery.Expr
import PullQuery.Expr.Dependencies
import PullQuery.Registry
import PullQuery.Context
import PullQuery.Context.Tree
import PullQuery.Scan
import PullQuery.Scan.Finite
import PullQuery.Scan.Leaf
import PullQuery.Scan.Children
import PullQuery.Scan.Nested
import PullQuery.Scan.Each
import PullQuery.Scan.Gather
import PullQuery.Scan.Choice
import PullQuery.Evaluation
import PullQuery.Builtin
import PullQuery.Stream
import PullQuery.Record
import PullQuery.Record.Codec
import PullQuery.Closure
import PullQuery.Output
import PullQuery.Expr.Output
import PullQuery.Proofs.Scan.Opening
import PullQuery.Proofs.Scan.Reading
import PullQuery.Proofs.Scan.Leaf
import PullQuery.Proofs.Scan.Children
import PullQuery.Proofs.Scan.Choice
import PullQuery.Proofs.Scan.Each
import PullQuery.Proofs.Scan.Gather
import PullQuery.Proofs.Scan.Nested
import PullQuery.Proofs.Machine.Primary
import PullQuery.Proofs.Machine.Structure
import PullQuery.Proofs.Machine.Clause
import PullQuery.Proofs.Machine.Unneeded
import PullQuery.Proofs.Expr.Output
import PullQuery.Proofs.Usage.Step
import PullQuery.Proofs.Usage.Children
import PullQuery.Proofs.Usage.Machine
import PullQuery.Proofs.Usage.Leaf
import PullQuery.Proofs.Usage.Expr
import PullQuery.Proofs.Usage.Run
import PullQuery.Proofs.Context.Agreement
import PullQuery.Proofs.Context.Scoping
import PullQuery.Proofs.Tuple.Binding
import PullQuery.Proofs.Expr.Dependencies
import PullQuery.Proofs.Expr.Stream
import PullQuery.Proofs.Scan.Transcript
import PullQuery.Proofs.Scan.Stage
import PullQuery.Proofs.Scan.Discipline
import PullQuery.Proofs.Arithmetic
import PullQuery.Proofs.Registry
import PullQuery.Proofs.Builtin
import PullQuery.Proofs.Expr.Node
import PullQuery.Proofs.Expr.Fault
import PullQuery.Proofs.Machine.Errors
import PullQuery.Proofs.Expr.Operand
import PullQuery.Proofs.Arithmetic.Table
import PullQuery.Proofs.Text.Numeral
import PullQuery.Proofs.Calendar.Lexical
import PullQuery.Proofs.Calendar.Days
import PullQuery.Proofs.Calendar.Timeline
import PullQuery.Proofs.Duration.Scanner
import PullQuery.Proofs.Calendar.Grammar
import PullQuery.Proofs.Duration.Lexical
import PullQuery.Proofs.Duration.Printing
import PullQuery.Proofs.Number.Decimal
import PullQuery.Proofs.Json.Literal
import PullQuery.Proofs.Json.Quoted
import PullQuery.Proofs.Json.Reading
import PullQuery.Proofs.Record
import PullQuery.Proofs.Record.Codec
import PullQuery.Proofs.Closure
import PullQuery.Proofs.Scan.Reached
import PullQuery.Proofs.Arithmetic.Points
import PullQuery.Proofs.Arithmetic.Rereading
import PullQuery.Proofs.Number.Value
import PullQuery.Proofs.Comparison
import PullQuery.Proofs.Comparison.Keys
import PullQuery.Proofs.Comparison.Classes
import PullQuery.Proofs.Tuple.Rows
import PullQuery.Proofs.Tuple.Sorting
import PullQuery.Proofs.Tuple.Grouping
import PullQuery.Proofs.Tuple.Sharing
import PullQuery.Proofs.Expr.Origin
import PullQuery.Proofs.Expr.Emission
import PullQuery.Proofs.Expr.Errors
import PullQuery.Proofs.Number.Exact
import PullQuery.Proofs.Arithmetic.Exact
import PullQuery.Proofs.Calendar.Months
import PullQuery.Proofs.Duration.Rereading
import PullQuery.Proofs.Duration.Components
import PullQuery.Proofs.Json.Value
import PullQuery.Proofs.Item.Text
import PullQuery.Proofs.Number.Rounding
import PullQuery.Proofs.Number.Double
import PullQuery.Proofs.Number.Shortest
import PullQuery.Proofs.Json.Rendering
import PullQuery.Proofs.Arithmetic.Products
import PullQuery.Proofs.Item.Ingest
import PullQuery.Proofs.Arithmetic.Reciprocals
import PullQuery.Proofs.Arithmetic.Scaling
import PullQuery.Proofs.Comparison.General
import PullQuery.Proofs.Arithmetic.Opposites
