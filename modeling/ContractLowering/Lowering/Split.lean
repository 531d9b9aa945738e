import ContractLowering.Lowering.Induction

/-!
# Splitting goals

A goal is split into parts that are proved, or reported, one by one. The parts that are checked
imply the goal, and the goal implies the parts that are free. Calls of predicates of the same
module are opened, so that a failure is found in their bodies; recursive predicates are opened as
often as the options allow.
-/

namespace ContractLowering

open IL Source

/-- What a part of a goal is for: to be assumed, to be proved, or both. -/
inductive PartKind where
  | free
  | checked
  | both
deriving DecidableEq, Inhabited

/-- Whether a part has to be proved. -/
def PartKind.isChecked : PartKind → Bool
  | .free => false
  | .checked | .both => true

/-- A part of a goal, with the place it comes from. -/
structure GoalPart where
  kind : PartKind
  expr : IL.Expr
  span : Span
deriving Inhabited

namespace GoalPart

/-- Parts under a condition or binder. -/
def wrapAll (wrap : IL.Expr → IL.Expr) (parts : List GoalPart) : List GoalPart :=
  parts.map fun p => { p with expr := wrap p.expr }

/-- The parts of an opened call that have to be proved, reported at the call. -/
def atCall (span : Span) (parts : List GoalPart) : List GoalPart :=
  (parts.filter (·.kind.isChecked)).map fun p => ⟨.checked, p.expr, span⟩

end GoalPart

/-- The number of expressions in an expression. -/
def Source.Expr.size (e : Source.Expr) : Nat := e.subexprs.length

/-- A bound on how often predicates that are not recursive are opened, one inside the other. The
body of an opened predicate mentions only predicates further down the call graph; an argument
that stands in it belongs to the text around the call, where it is smaller than the call. So the
sizes of what is left at each depth of the call graph, read as digits, go down with every
opening. -/
def openingBound (c : Context) (goal : Source.Expr) : Nat :=
  let sizes := c.functions.map fun f => (f.body.map Source.Expr.size).getD 0
  Nat.pow (sizes.foldl max goal.size + 1) (c.functions.length + 2)

/-- The body of a predicate at the arguments of a call, if the call may be opened. -/
def openedBody? (f : Function) (receiver : Option Source.Expr) (args : List Source.Expr) :
    ExprM (Option Source.Expr) := do
  if !(← ExprM.isSameModule f.name) || f.isHidden then return none
  match f.result.2, f.body with
  | .bool, some body =>
    let this := if f.owner.isSome then receiver else none
    return some (body.subst (.ofBindings this ((f.params.map (·.1)).zip args)))
  | _, _ => return none

/-- The parts of a goal. `height` is how often recursive predicates may still be opened, `fuel`
how often others may be, and `induct` whether quantifiers are proved by induction. -/
def splitGoal (v : View) (height fuel : Nat) (induct : Bool) (goal : Source.Expr) :
    DeclM (List GoalPart) :=
  match goal with
  | .binary _ .and a b => do
    let first ← splitGoal v height fuel induct a
    let second ← splitGoal v height fuel induct b
    return first ++ second
  | .binary _ .implies a b => do
    let hyp ← lowerExpr v a
    let parts ← splitGoal v height fuel induct b
    return GoalPart.wrapAll (.imp hyp) parts
  | .binary _ .or a b => do
    let hyp ← lowerExpr v a
    let parts ← splitGoal v height fuel induct b
    return GoalPart.wrapAll (.imp hyp.neg) parts
  | .ite _ c a b => do
    let test ← lowerExpr v c
    let thn ← splitGoal v height fuel induct a
    let els ← splitGoal v height fuel induct b
    return GoalPart.wrapAll (.imp test) thn ++ GoalPart.wrapAll (.imp test.neg) els
  | .letIn _ bindings body => do
    let values ← lowerBindings v bindings
    let parts ← splitGoal v height fuel induct body
    return GoalPart.wrapAll (.lets values) parts
  | .quant i .all binders range body triggers attr => do
    let wheres ← bindersWhere v.heap binders
    let r ← lowerExpr? v range
    let hyp := IL.Expr.conj (wheres :: r.toList)
    let auto := (← DeclM.context).options.autoTriggers && triggers.isEmpty
    let given ← lowerTriggers v triggers
    let vars ← if induct then inductionVars attr binders (body :: range.toList) else pure []
    if vars.isEmpty then
      let parts ← splitGoal v height fuel induct body
      return GoalPart.wrapAll (fun p =>
        let matrix := .imp hyp p
        let chosen := if auto then Triggers.select (binders.map (·.1)) matrix else given
        .all (sortBinders binders) chosen matrix) parts
    else
      let obligations ← quantifierObligations v i.span binders vars range body
      let whole ← lowerExpr v (.quant i .all binders range body triggers attr)
      return obligations.map (⟨.checked, ·, i.span⟩) ++ [⟨.free, whole, i.span⟩]
  | .call i f receiver args =>
    match height with
    | 0 => return [⟨.both, ← lowerExpr v (.call i f receiver args), i.span⟩]
    | lower + 1 => do
      let callee ← ExprM.function f
      let call ← lowerExpr v (.call i f receiver args)
      match ← openedBody? callee receiver args with
      | none => return [⟨.both, call, i.span⟩]
      | some body => do
        let values ← lowerCallArgs v f receiver args
        let unfolded ← lowerExpr v body
        let inner ←
          if ← ExprM.isRecursive f then
            splitGoal v lower (openingBound (← DeclM.context) body) false body
          else match fuel with
            | 0 => pure [⟨.both, unfolded, body.span⟩]
            | less + 1 => splitGoal v (lower + 1) less false body
        let canCall := IL.Expr.app (Naming.layered f .canCall) values
        return [⟨.free, call, i.span⟩, ⟨.free, .imp canCall unfolded, i.span⟩]
          ++ GoalPart.atCall i.span inner
  | other => return [⟨.both, ← lowerExpr v other, other.span⟩]
termination_by (height, fuel, sizeOf goal)

/-- The parts of a goal. With `induct`, quantifiers are proved by induction where it seems to
help. -/
def split (v : View) (goal : Source.Expr) (induct : Bool) : DeclM (List GoalPart) := do
  let c ← DeclM.context
  splitGoal v c.options.splitHeight (openingBound c goal) induct goal

end ContractLowering
