import PiecewiseLinear.Bound
import PiecewiseLinear.Config.Basic
import PiecewiseLinear.Config.Stored
import PiecewiseLinear.Decimal.Clipped
import PiecewiseLinear.Decimal.Layout
import PiecewiseLinear.Decimal.Numeral
import PiecewiseLinear.Decimal.Shortest
import PiecewiseLinear.Encoding.Call
import PiecewiseLinear.Encoding.Convexity
import PiecewiseLinear.Encoding.Draft
import PiecewiseLinear.Encoding.Interval
import PiecewiseLinear.Encoding.Plan
import PiecewiseLinear.Encoding.Ray
import PiecewiseLinear.Encoding.Record
import PiecewiseLinear.Encoding.Symbol
import PiecewiseLinear.Error
import PiecewiseLinear.Event
import PiecewiseLinear.Expr.Equation
import PiecewiseLinear.Expr.Linear
import PiecewiseLinear.Expr.Terms
import PiecewiseLinear.Json.Basic
import PiecewiseLinear.Json.Escape
import PiecewiseLinear.Json.Printer
import PiecewiseLinear.Json.Reader
import PiecewiseLinear.Json.Record
import PiecewiseLinear.Lowering
import PiecewiseLinear.Model.Basic
import PiecewiseLinear.Model.Names
import PiecewiseLinear.Model.SosSet
import PiecewiseLinear.Model.Stored
import PiecewiseLinear.Model.Variable
import PiecewiseLinear.Model.Violation
import PiecewiseLinear.Numerals
import PiecewiseLinear.Proofs.Accepted
import PiecewiseLinear.Proofs.Activation
import PiecewiseLinear.Proofs.Activity
import PiecewiseLinear.Proofs.Alike
import PiecewiseLinear.Proofs.Balance
import PiecewiseLinear.Proofs.Call
import PiecewiseLinear.Proofs.Coefficients
import PiecewiseLinear.Proofs.Composition
import PiecewiseLinear.Proofs.ConfigText
import PiecewiseLinear.Proofs.Convexity
import PiecewiseLinear.Proofs.Cores
import PiecewiseLinear.Proofs.Draft
import PiecewiseLinear.Proofs.Escape
import PiecewiseLinear.Proofs.Evaluation
import PiecewiseLinear.Proofs.Exact
import PiecewiseLinear.Proofs.Extension
import PiecewiseLinear.Proofs.Graph
import PiecewiseLinear.Proofs.GrayCode
import PiecewiseLinear.Proofs.GrayRows
import PiecewiseLinear.Proofs.Growth
import PiecewiseLinear.Proofs.Identity
import PiecewiseLinear.Proofs.Interval
import PiecewiseLinear.Proofs.JsonNumber
import PiecewiseLinear.Proofs.JsonRecord
import PiecewiseLinear.Proofs.JsonText
import PiecewiseLinear.Proofs.Jumps
import PiecewiseLinear.Proofs.Labels
import PiecewiseLinear.Proofs.Language
import PiecewiseLinear.Proofs.Layout
import PiecewiseLinear.Proofs.Linear
import PiecewiseLinear.Proofs.Logarithmic
import PiecewiseLinear.Proofs.Lowerable
import PiecewiseLinear.Proofs.Lowering
import PiecewiseLinear.Proofs.Magnitude
import PiecewiseLinear.Proofs.Mark
import PiecewiseLinear.Proofs.Names
import PiecewiseLinear.Proofs.NativeChain
import PiecewiseLinear.Proofs.Navigation
import PiecewiseLinear.Proofs.OpenEnds
import PiecewiseLinear.Proofs.Order
import PiecewiseLinear.Proofs.Partition
import PiecewiseLinear.Proofs.Parts
import PiecewiseLinear.Proofs.Picks
import PiecewiseLinear.Proofs.Pruning
import PiecewiseLinear.Proofs.Queries
import PiecewiseLinear.Proofs.Rays
import PiecewiseLinear.Proofs.Record
import PiecewiseLinear.Proofs.Registration
import PiecewiseLinear.Proofs.Registry
import PiecewiseLinear.Proofs.Reload
import PiecewiseLinear.Proofs.Renumbering
import PiecewiseLinear.Proofs.Representation
import PiecewiseLinear.Proofs.Roles
import PiecewiseLinear.Proofs.RoundTrip
import PiecewiseLinear.Proofs.Scope
import PiecewiseLinear.Proofs.Selection
import PiecewiseLinear.Proofs.Sizes
import PiecewiseLinear.Proofs.Sound
import PiecewiseLinear.Proofs.Stored
import PiecewiseLinear.Proofs.Terms
import PiecewiseLinear.Proofs.Tolerance
import PiecewiseLinear.Proofs.TomlLine
import PiecewiseLinear.Proofs.TomlValue
import PiecewiseLinear.Proofs.Transaction
import PiecewiseLinear.Proofs.Verdict
import PiecewiseLinear.Proofs.Violation
import PiecewiseLinear.Proofs.Weights
import PiecewiseLinear.Scalar
import PiecewiseLinear.Session
import PiecewiseLinear.Table.Basic
import PiecewiseLinear.Table.Breakpoint
import PiecewiseLinear.Table.Build
import PiecewiseLinear.Table.Query
import PiecewiseLinear.Table.Segment
import PiecewiseLinear.Toml.Bare
import PiecewiseLinear.Toml.Reader
import PiecewiseLinear.Toml.Text
import PiecewiseLinear.Toml.Value
