import ContractLowering.Lowering.Expr
import ContractLowering.Source.Measure

/-!
# Comparing measures

Measures are compared lexicographically, component by component in the order of their types:
`false` below `true`, smaller integers, shorter sequences, smaller ranks, proper subsets, null
below any object. The comparison ends at the first pair of components that cannot be compared,
where the old tuple counts as larger; so does one with more components.
-/

namespace ContractLowering

open IL Source

/-- A component of a measure as a value. -/
structure MeasureValue where
  typ : Typ
  expr : IL.Expr
  everIncreasing : Bool
deriving Inhabited

namespace Termination

/-- The order a component is compared in. -/
inductive Order where
  | bool
  | int
  | seq
  | datatype
  | set
  | multiset
  | map
  | ref
  | growing
deriving DecidableEq, Inhabited

/-- The order of a component, or `none` if it cannot be compared. -/
def order? (v : MeasureValue) : Option Order :=
  if v.everIncreasing then some .growing
  else match v.typ with
    | .bool => some .bool
    | .int | .nat => some .int
    | .seq _ => some .seq
    | .datatype .. => some .datatype
    | .set _ => some .set
    | .multiset _ => some .multiset
    | .map .. => some .map
    | .cls .. | .array _ | .object => some .ref
    | .param _ => none

/-- The order in which two components are compared, if they have the same one. -/
def commonOrder? (old new : MeasureValue) : Option Order :=
  match order? old with
  | none => none
  | some o => if order? new = some o then some o else none

/-- That the new value is below the old one. -/
def less (order : Order) (o n : IL.Expr) : IL.Expr :=
  match order with
  | .bool => .conj [n.neg, o]
  | .int => .lt n o
  | .growing => .lt o n
  | .seq => .lt (Prelude.seqLength n) (Prelude.seqLength o)
  | .datatype => .lt (Prelude.dtRank n) (Prelude.dtRank o)
  | .set => .conj [Prelude.setSubset n o, (Prelude.setEqual n o).neg]
  | .multiset => .conj [Prelude.multisetSubset n o, (Prelude.multisetEqual n o).neg]
  | .map =>
    let dn := Prelude.mapDomain n
    let d := Prelude.mapDomain o
    .conj [Prelude.setSubset dn d, (Prelude.setEqual dn d).neg]
  | .ref => .conj [.eq n Prelude.null, .ne o Prelude.null]

/-- That a component did not change. -/
def unchanged (old new : MeasureValue) : IL.Expr :=
  if old.everIncreasing then .eq old.expr new.expr else typedEq old.typ new.expr old.expr

/-- The lexicographic order of two tuples of values. With `allowEqual` the new tuple may be as
large as the old one. -/
def decreases (allowEqual : Bool) : List MeasureValue → List MeasureValue → IL.Expr
  | o :: os, n :: ns =>
    match commonOrder? o n with
    | none => .tt
    | some order =>
      .disj [less order o.expr n.expr, .conj [unchanged o n, decreases allowEqual os ns]]
  | _ :: _, [] => .tt
  | [], _ => .bool allowEqual

/-- For every integer component: if those before it are unchanged and it went down, then it is not
negative. `unchangedBefore` says that the components before are. -/
def bounds (unchangedBefore : List IL.Expr) :
    List MeasureValue → List MeasureValue → List IL.Expr
  | o :: os, n :: ns =>
    match commonOrder? o n with
    | none => []
    | some order =>
      let here := if order = .int then
          [IL.Expr.imp (.conj (unchangedBefore ++ [.lt n.expr o.expr])) (.le (.nat 0) n.expr)]
        else []
      here ++ bounds (unchangedBefore ++ [unchanged o n]) os ns
  | _, _ => []

/-- That integer components stay bounded, if there are any. -/
def bounded? (olds news : List MeasureValue) : Option IL.Expr :=
  match bounds [] olds news with
  | [] => none
  | bs => some (.conj bs)

/-- The values of a measure. -/
def values (v : View) (m : Measure) : ExprM (List MeasureValue) :=
  m.exprs.mapM fun
    | .expr e => return ⟨e.typ, ← lowerExpr v e, false⟩
    | .yields counter => return ⟨.int, .var counter, true⟩

/-- The same values with variables bound. -/
def bindValues (bindings : List (String × IL.Expr)) (vs : List MeasureValue) :
    List MeasureValue :=
  vs.map fun v => { v with expr := .lets bindings v.expr }

/-- What calls into the current recursion have to stay below: the values of the measure on
entry. -/
structure Entry where
  current : Path
  olds : List MeasureValue
  inferred : Bool
  wildcard : Bool
deriving Inhabited

/-- The message of a measure that may not decrease. -/
def message (span : Span) (inferred : Bool) : Message :=
  if inferred then
    (Message.error "cannot prove termination; try supplying a decreases clause" span).withRemark
      "the decreases clause was inferred"
  else .error "decreases expression might not decrease" span

/-- The obligations of a call: the callee's measure at the arguments is strictly below the
caller's on entry, and bounded. A call that leaves the recursion has none. -/
def callChecks (v : View) (entry : Entry) (callee : Path) (measure : Measure)
    (bindings : List (String × IL.Expr)) (span : Span) : ExprM (List (IL.Expr × Message)) := do
  let inRecursion ← ExprM.inSameComponent entry.current callee
  let recursive ← ExprM.isRecursive callee
  if entry.wildcard || !inRecursion || !recursive then return []
  let news := bindValues bindings (← values v measure)
  let goesDown :=
    (decreases false entry.olds news, message span (entry.inferred || measure.inferred))
  let bounded := (bounded? entry.olds news).toList.map fun b =>
    (b, Message.error "decreases expression must be bounded below by 0" span)
  return goesDown :: bounded

/-- What holds at the end of each iteration of a loop. -/
def loopCheck (measure : Measure) (olds news : List MeasureValue) : IL.Expr :=
  let goesDown := decreases measure.wildcard olds news
  match bounded? olds news with
  | some b => if measure.wildcard then goesDown else .conj [goesDown, b]
  | none => goesDown

end Termination

end ContractLowering
