import FlatScope.CallStack
import FlatScope.CommandLine.Folder
import FlatScope.CommandLine.Options
import FlatScope.CommandLine.Run
import FlatScope.Config
import FlatScope.Eval.Agreement
import FlatScope.Eval.Basic
import FlatScope.Eval.Call
import FlatScope.Eval.Depth
import FlatScope.Eval.Machine
import FlatScope.Expr.Basic
import FlatScope.Expr.Reading
import FlatScope.Expr.Shape
import FlatScope.Fault
import FlatScope.Json.Basic
import FlatScope.Json.Binary64
import FlatScope.Json.Numeral
import FlatScope.Json.Reader
import FlatScope.Main
import FlatScope.Name
import FlatScope.Prelude
import FlatScope.Program.Code
import FlatScope.Program.Layout
import FlatScope.Program.Span
import FlatScope.Proofs.Calls.Backtrace
import FlatScope.Proofs.Calls.Balance
import FlatScope.Proofs.Calls.InBounds
import FlatScope.Proofs.Calls.Limit
import FlatScope.Proofs.Calls.Natives
import FlatScope.Proofs.Calls.Parameters
import FlatScope.Proofs.Calls.Recording
import FlatScope.Proofs.Calls.Termination
import FlatScope.Proofs.CommandLine.Groups
import FlatScope.Proofs.CommandLine.Values
import FlatScope.Proofs.Decoding.Faithful
import FlatScope.Proofs.Decoding.FirstViolation
import FlatScope.Proofs.Decoding.Grammar
import FlatScope.Proofs.Decoding.PostOrder
import FlatScope.Proofs.Decoding.ReadBack
import FlatScope.Proofs.Frames.Confinement
import FlatScope.Proofs.Frames.Extensions
import FlatScope.Proofs.Frames.Handles
import FlatScope.Proofs.Frames.Links
import FlatScope.Proofs.Frames.Mutation
import FlatScope.Proofs.Frames.Owners
import FlatScope.Proofs.Lockstep.AppliedLambda
import FlatScope.Proofs.Lockstep.Coupling
import FlatScope.Proofs.Lockstep.InStep
import FlatScope.Proofs.Lockstep.Mentioned
import FlatScope.Proofs.Lockstep.Scoping
import FlatScope.Proofs.Lockstep.Unvisited
import FlatScope.Proofs.Names.Capacity
import FlatScope.Proofs.Names.Concurrent
import FlatScope.Proofs.Names.History
import FlatScope.Proofs.Numbers.Decimal
import FlatScope.Proofs.Numbers.Literals
import FlatScope.Proofs.Numbers.Natives
import FlatScope.Proofs.Numbers.Rounding
import FlatScope.Proofs.Numbers.Tokens
import FlatScope.Proofs.Program.Allocation
import FlatScope.Proofs.Scope.Names
import FlatScope.Proofs.Scope.Soundness
import FlatScope.Proofs.Scope.Start
import FlatScope.Proofs.Tree.Completeness
import FlatScope.Proofs.Tree.Entry
import FlatScope.Proofs.Tree.Refinement
import FlatScope.Proofs.Tree.Semantics
import FlatScope.Proofs.Tree.Soundness
import FlatScope.Proofs.Tree.View
import FlatScope.Proofs.Tree.WellFormed
import FlatScope.Store.Basic
import FlatScope.Store.Bindings
import FlatScope.Store.Ownership
import FlatScope.Text.Blank
import FlatScope.Text.Numeral
import FlatScope.Text.Quoted
import FlatScope.Value
import FlatScope.Word
