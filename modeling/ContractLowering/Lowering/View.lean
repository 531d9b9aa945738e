import ContractLowering.IL.Build
import ContractLowering.Naming

/-!
# Views

A `View` says in which state an expression is lowered: the current heap and the old one, the name
of the receiver, which variants of recursive functions calls refer to, and the frame of the
surrounding code.
-/

namespace ContractLowering

/-- Which variant of a recursive function a call refers to: the limited one inside its own
recursion and else the normal one, always the normal one, or always the limited one. -/
inductive LayerMode where
  | default
  | unrolled
  | limited
deriving DecidableEq, Inhabited

/-- The state in which an expression is lowered. -/
structure View where
  heap : IL.Expr
  oldHeap : IL.Expr
  this : Option String := none
  layer : LayerMode := .default
  frame : Option String := none
deriving Inhabited

namespace View

/-- The view of the old state, whose own old state is itself. -/
def old (v : View) : View := { v with heap := v.oldHeap }

/-- The receiver. -/
def thisExpr (v : View) : IL.Expr := .var (v.this.getD Naming.this)

end View

end ContractLowering
