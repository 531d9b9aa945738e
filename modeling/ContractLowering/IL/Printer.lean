import ContractLowering.IL.Expr
import ContractLowering.SExpr.Basic

/-!
# Writing expressions

`Expr.toSExpr` gives the tree that reads back as the same expression; a quantifier is annotated
exactly when it has triggers.
-/

namespace ContractLowering.IL

/-- The name of a sort. -/
def Srt.name : Srt → String
  | .bool => "Bool"
  | .int => "Int"
  | .lambda => "Lambda"
  | .named x => x

/-- The word for an operator of two operands. -/
def BinOp.head : BinOp → String
  | .implies => "=>"
  | .eq => "="
  | .le => "<="
  | .ge => ">="
  | .lt => "<"
  | .gt => ">"
  | .div => "div"
  | .mod => "mod"

/-- The word for an operator of any number of operands. -/
def MultiOp.head : MultiOp → String
  | .and => "and"
  | .or => "or"
  | .add => "+"
  | .sub => "-"
  | .mul => "*"
  | .distinct => "distinct"

/-- The word for a quantifier. -/
def Quantifier.head : Quantifier → String
  | .all => "forall"
  | .ex => "exists"

/-- The tree of a variable with its sort. -/
def Binder.toSExpr (b : Binder) : SExpr := .list [.atom b.1, .atom b.2.name]

/-- The tree of binders. -/
def Binder.toSExprs (bs : List Binder) : SExpr := .list (bs.map Binder.toSExpr)

mutual

/-- The tree of an expression. -/
def Expr.toSExpr : Expr → SExpr
  | .bool b => .atom (if b then "true" else "false")
  | .num digits => .atom digits
  | .var x => .atom x
  | .old x => .list [.atom "old", .atom x]
  | .app f args => .list (.atom f :: Expr.toSExprs args)
  | .applyLambda result f args =>
    .list (.atom "apply" :: .atom result.name :: f.toSExpr :: Expr.toSExprs args)
  | .not e => .list [.atom "not", e.toSExpr]
  | .binary op a b => .list [.atom op.head, a.toSExpr, b.toSExpr]
  | .multi op es => .list (.atom op.head :: Expr.toSExprs es)
  | .ite c a b => .list [.atom "ite", c.toSExpr, a.toSExpr, b.toSExpr]
  | .letIn bindings body =>
    .list [.atom "let", .list (Expr.bindingsToSExprs bindings), body.toSExpr]
  | .quant q binders [] body =>
    .list [.atom q.head, Binder.toSExprs binders, body.toSExpr]
  | .quant q binders (t :: ts) body =>
    .list [.atom q.head, Binder.toSExprs binders,
      .list (.atom "!" :: body.toSExpr :: Expr.triggersToSExprs (t :: ts))]
  | .lambda binders body => .list [.atom "lambda", Binder.toSExprs binders, body.toSExpr]

/-- The trees of several expressions. -/
def Expr.toSExprs : List Expr → List SExpr
  | [] => []
  | e :: es => e.toSExpr :: Expr.toSExprs es

/-- The trees of the bindings of a let. -/
def Expr.bindingsToSExprs : List (String × Expr) → List SExpr
  | [] => []
  | (x, e) :: bs => .list [.atom x, e.toSExpr] :: Expr.bindingsToSExprs bs

/-- The annotations of a quantifier: every trigger after the word `:pattern`. -/
def Expr.triggersToSExprs : List (List Expr) → List SExpr
  | [] => []
  | t :: ts => .atom ":pattern" :: .list (Expr.toSExprs t) :: Expr.triggersToSExprs ts

end

/-- The text of an expression. -/
def Expr.render (e : Expr) : String := e.toSExpr.render

end ContractLowering.IL
