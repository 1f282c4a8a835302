import Shading.Cli
import Shading.Glsl.Basic
import Shading.Glsl.Lookup
import Shading.Glsl.Module
import Shading.Glsl.Rvalue
import Shading.Ir.Clone
import Shading.Ir.Constant
import Shading.Ir.Fault
import Shading.Ir.Instruction
import Shading.Ir.Loop
import Shading.Ir.Outline
import Shading.Ir.Rvalue
import Shading.Ir.Swizzle
import Shading.Ir.Text
import Shading.Ir.Variable
import Shading.Ir.Walk
import Shading.Main
import Shading.Number.Binary
import Shading.Number.Decimal
import Shading.Number.Shortest
import Shading.Operator
import Shading.Read.Error
import Shading.Read.Instruction
import Shading.Read.Module
import Shading.Read.Rvalue
import Shading.Read.Simple
import Shading.Read.TypeTable
import Shading.Scope
import Shading.Sexp.Grammar
import Shading.Sexp.Layout
import Shading.Sexp.Node
import Shading.Sexp.Read
import Shading.Sexp.Token
import Shading.Supply
import Shading.Ty.Basic
import Shading.Ty.Builtin
import Shading.Unroll
import Shading.Proofs.RoundTrip.Module
import Shading.Proofs.Read.WellFormed
import Shading.Proofs.Read.WellScoped
import Shading.Proofs.Execution
import Shading.Proofs.Unroll.Copies
import Shading.Proofs.Unroll.Meaning
import Shading.Proofs.Number.Numeral
import Shading.Proofs.Sexp.Inverse
import Shading.Proofs.Read.Calls
import Shading.Proofs.Read.Failure
import Shading.Proofs.Read.InStep
import Shading.Proofs.Sexp.Grammar
import Shading.Proofs.Read.Incremental
import Shading.Proofs.Jump.Reach
import Shading.Proofs.Scan.Agreement
import Shading.Proofs.Read.Lexical
import Shading.Proofs.Read.Table
import Shading.Proofs.Unroll.Examination
import Shading.Proofs.Unroll.Independence
import Shading.Proofs.Unroll.Dangling
import Shading.Proofs.Ty.Interned
import Shading.Proofs.RoundTrip.Float
import Shading.Proofs.Read.Location
import Shading.Proofs.Constant
import Shading.Proofs.Glsl.Parentheses
import Shading.Proofs.Glsl.Fidelity
