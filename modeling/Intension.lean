import Intension.Settings
import Intension.Expr.Abstraction
import Intension.Expr.Text
import Intension.Shape
import Intension.Extension.Values
import Intension.Extension.Split
import Intension.Proofs.Machine.ShortCircuit
import Intension.Proofs.Program.Category
import Intension.Proofs.Program.Guards
import Intension.Proofs.Expr.Measure
import Intension.Proofs.Program.Conservation
import Intension.Proofs.Machine.Safety
import Intension.Proofs.Program.Compilable
import Intension.Proofs.Program.Text
import Intension.Proofs.Extension.Split
import Intension.Proofs.Program.Numbering
import Intension.Proofs.Expr.Renaming
import Intension.Proofs.Program.Instance
import Intension.Proofs.Program.Sets
import Intension.Proofs.Expr.Relabelled
import Intension.Proofs.Shape.Form
import Intension.Proofs.Shape.Grammar
import Intension.Proofs.Shape.Canonical
import Intension.Proofs.Program.FirstOperand
import Intension.Proofs.Extension.Conflict
import Intension.Proofs.Extension.Values
import Intension.Proofs.Operator.Faults
import Intension.Proofs.Operator.Overflow
import Intension.Proofs.Template.Generality
import Intension.Proofs.Template.Payload
import Intension.Proofs.Program.Reread
import Intension.Proofs.Token.Unique
import Intension.Proofs.Expr.Text
import Intension.Proofs.Expr.Arguments
import Intension.Proofs.Expr.Fresh
import Intension.Proofs.Extension.Walk
import Intension.Proofs.Operator.Rearranged
