import Stepwise.Analysis
import Stepwise.Assoc
import Stepwise.Call.Binding
import Stepwise.Call.Check
import Stepwise.Call.Inputs
import Stepwise.Call.Plan
import Stepwise.Call.Site
import Stepwise.Code.Instruction
import Stepwise.Code.Listing
import Stepwise.Code.Lower
import Stepwise.Conflict
import Stepwise.Decimal.Binary
import Stepwise.Decimal.Plain
import Stepwise.Decimal.Shortest
import Stepwise.Detail
import Stepwise.Diagnostic
import Stepwise.Lexicon
import Stepwise.Machine.Evaluator
import Stepwise.Machine.Execute
import Stepwise.Machine.Frame
import Stepwise.Machine.Stack
import Stepwise.Machine.Step
import Stepwise.MeasureUnit
import Stepwise.Program
import Stepwise.Proofs.Machine.Action
import Stepwise.Syntax.Build
import Stepwise.Syntax.Describe
import Stepwise.Syntax.Equality
import Stepwise.Syntax.Node
import Stepwise.Syntax.Operator
import Stepwise.Syntax.Quotation
import Stepwise.Syntax.Replace
import Stepwise.Syntax.Token
import Stepwise.Syntax.Tree
import Stepwise.Text.Aligned
import Stepwise.Text.Quoted
import Stepwise.Typing.Acceptance
import Stepwise.Typing.Declared
import Stepwise.Typing.Infer
import Stepwise.Typing.Names
import Stepwise.Typing.Query
import Stepwise.Typing.Substitution
import Stepwise.Typing.Units
import Stepwise.Value.Basic
import Stepwise.Value.Exception
import Stepwise.Value.Operation
import Stepwise.Proofs.Machine.Execution
import Stepwise.Proofs.Machine.Discipline
import Stepwise.Proofs.Machine.Isolation
import Stepwise.Proofs.Machine.Consumption
import Stepwise.Proofs.Reference.Refinement
import Stepwise.Proofs.Typing.Repeatable
import Stepwise.Proofs.Typing.Soundness
import Stepwise.Proofs.Typing.Termination
import Stepwise.Proofs.Code.Inlining
import Stepwise.Proofs.Call.Binding
import Stepwise.Proofs.Call.Reports
import Stepwise.Proofs.Machine.Limits
import Stepwise.Proofs.Machine.Exceptions
import Stepwise.Proofs.Machine.Interleaving
import Stepwise.Proofs.Typing.History
import Stepwise.Proofs.Machine.Independence
import Stepwise.Proofs.Machine.Calling
import Stepwise.Proofs.Code.Halts
import Stepwise.Proofs.Syntax.Arrival
import Stepwise.Proofs.Machine.Resolution
import Stepwise.Proofs.Call.Spread
import Stepwise.Proofs.Call.Optional
import Stepwise.Proofs.Code.Nesting
import Stepwise.Proofs.Machine.Cursor
import Stepwise.Proofs.Lexicon
import Stepwise.Proofs.Typing.Parts
import Stepwise.Proofs.Typing.Filling
import Stepwise.Proofs.Typing.Admission
import Stepwise.Proofs.Typing.Unions
import Stepwise.Proofs.Call.Omission
import Stepwise.Proofs.Call.ExplicitTypes
import Stepwise.Proofs.Typing.Resolving
import Stepwise.Proofs.MeasureUnit
import Stepwise.Proofs.Code.Statements
import Stepwise.Proofs.Machine.Lifetime
import Stepwise.Proofs.Machine.Members
import Stepwise.Proofs.Typing.Variables
import Stepwise.Proofs.Call.Order
import Stepwise.Proofs.Typing.Coverage
import Stepwise.Proofs.Machine.Attribution
import Stepwise.Proofs.Syntax.Traversal
import Stepwise.Proofs.Syntax.Languages
