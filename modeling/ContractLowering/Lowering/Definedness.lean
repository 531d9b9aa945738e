import ContractLowering.IL.Program
import ContractLowering.Lowering.Obligation

/-!
# Definedness of expressions

Two traversals of an expression collect what its operations need, each under the conditions that
reach it: a conjunct after the first is evaluated only if the first holds, the body of a
quantifier for all values of its variables, a match case for its constructor.

`definedness` gives statements: an assertion for each obligation and an assumption for the fact
each call leaves behind. `isTotal` and `canCall` give the same as formulas, for places that no
statement can go to.
-/

namespace ContractLowering

open IL Source

/-- What stands between an operation and the expression it is part of. -/
inductive Frame where
  | guard (cond : IL.Expr)
  | bind (bindings : List (String × IL.Expr))
  | forAll (binders : List IL.Binder) (wheres : IL.Expr)
deriving Inhabited

namespace Frame

/-- The frame of bound variables of the source. -/
def ofBinders (v : View) (binders : List Source.Binder) : ExprM Frame := do
  return .forAll (sortBinders binders) (← bindersWhere v.heap binders)

/-- A formula under a frame. A trivial one stays trivial. -/
def wrap (auto : Bool) (e : IL.Expr) : Frame → IL.Expr
  | .guard cond => .imp cond e
  | .bind bindings => if e.isTrue then e else .lets bindings e
  | .forAll binders wheres =>
    if e.isTrue then e
    else
      let matrix := IL.Expr.imp wheres e
      let triggers := if auto then Triggers.select (binders.map (·.1)) matrix else []
      .all binders triggers matrix

/-- A formula under frames, of which the innermost comes first. -/
def wrapAll (auto : Bool) (frames : List Frame) (e : IL.Expr) : IL.Expr :=
  frames.foldl (wrap auto) e

/-- Formulas under a frame, each on its own, without the trivial ones. -/
def under (auto : Bool) (frame : Frame) (es : List IL.Expr) : List IL.Expr :=
  (es.map fun e => frame.wrap auto e).filter fun e => !e.isTrue

end Frame

/-- How the value of the first operand becomes the condition under which the second one is
evaluated, for the operators that have one. -/
def guardOfFirst? : Source.BinOp → Option (IL.Expr → IL.Expr)
  | .and | .implies => some id
  | .or => some IL.Expr.neg
  | _ => none

/-! ## As statements -/

/-- Asserts an obligation under frames, unless it is trivial there. -/
def assertUnder (auto : Bool) (frames : List Frame) (o : Obligation) : List IL.Stmt :=
  let cond := Frame.wrapAll auto frames o.cond
  if cond.isTrue then [] else [.assert o.msg cond]

/-- Assumes a fact under frames, unless it is trivial there. -/
def assumeUnder (auto : Bool) (frames : List Frame) (fact : IL.Expr) : List IL.Stmt :=
  let fact := Frame.wrapAll auto frames fact
  if fact.isTrue then [] else [.assume fact]

/-- The statements of the outermost operation of an expression. -/
def checkNode (v : View) (limits : Limits) (frames : List Frame) (e : Source.Expr) :
    ExprM (List IL.Stmt) := do
  let auto := (← ExprM.options).autoTriggers
  let obligations ← nodeObligations v limits e
  let fact ← canCallFact? v e
  return obligations.flatMap (assertUnder auto frames)
    ++ fact.toList.flatMap (assumeUnder auto frames)

mutual

/-- The statements that check an expression under frames. -/
def check (v : View) (limits : Limits) (frames : List Frame) :
    Source.Expr → ExprM (List IL.Stmt)
  | .bool .. | .int .. | .null .. | .var .. | .this .. => return []
  | .field i e f => do
    let inner ← check v limits frames e
    return inner ++ (← checkNode v limits frames (.field i e f))
  | .arrayLength i e => do
    let inner ← check v limits frames e
    return inner ++ (← checkNode v limits frames (.arrayLength i e))
  | .destruct i e d c f => do
    let inner ← check v limits frames e
    return inner ++ (← checkNode v limits frames (.destruct i e d c f))
  | .isCtor _ e _ _ | .fresh _ e | .unary _ _ e => check v limits frames e
  | .index i a b => do
    let first ← check v limits frames a
    let second ← check v limits frames b
    return first ++ second ++ (← checkNode v limits frames (.index i a b))
  | .slice i e lo hi => do
    let inner ← check v limits frames e
    let lower ← check? v limits frames lo
    let upper ← check? v limits frames hi
    return inner ++ lower ++ upper ++ (← checkNode v limits frames (.slice i e lo hi))
  | .update i a b c => do
    let first ← check v limits frames a
    let second ← check v limits frames b
    let third ← check v limits frames c
    return first ++ second ++ third ++ (← checkNode v limits frames (.update i a b c))
  | .display _ _ es => checkList v limits frames es
  | .ctor i d c es => do
    let inner ← checkList v limits frames es
    return inner ++ (← checkNode v limits frames (.ctor i d c es))
  | .mapDisplay _ entries => checkEntries v limits frames entries
  | .old _ e => check v.old limits frames e
  | .binary i op a b => do
    let first ← check v limits frames a
    match guardOfFirst? op with
    | some guard => do
      let x ← lowerExpr v a
      return first ++ (← check v limits (.guard (guard x) :: frames) b)
    | none => do
      let second ← check v limits frames b
      return first ++ second ++ (← checkNode v limits frames (.binary i op a b))
  | .quant _ _ binders range body _ _ => do
    let frames := (← Frame.ofBinders v binders) :: frames
    match range with
    | none => check v limits frames body
    | some r => do
      let first ← check v limits frames r
      let x ← lowerExpr v r
      return first ++ (← check v limits (.guard x :: frames) body)
  | .setComp _ binders range term => do
    let frames := (← Frame.ofBinders v binders) :: frames
    let first ← check v limits frames range
    match term with
    | none => return first
    | some t => do
      let x ← lowerExpr v range
      return first ++ (← check v limits (.guard x :: frames) t)
  | .mapComp _ binder range term => do
    let frames := (← Frame.ofBinders v [binder]) :: frames
    let first ← check v limits frames range
    let x ← lowerExpr v range
    return first ++ (← check v limits (.guard x :: frames) term)
  | .letIn _ bindings body => do
    let first ← checkBindings v limits frames bindings
    let values ← lowerBindings v bindings
    return first ++ (← check v limits (.bind values :: frames) body)
  | .ite _ c a b => do
    let first ← check v limits frames c
    let x ← lowerExpr v c
    let thn ← check v limits (.guard x :: frames) a
    let els ← check v limits (.guard x.neg :: frames) b
    return first ++ thn ++ els
  | .cases i e arms => do
    let first ← check v limits frames e
    let dt ← matchedDatatype e.typ
    let s ← lowerExpr v e
    let d ← ExprM.datatype dt
    let auto := (← ExprM.options).autoTriggers
    let bodies := checkArms v limits arms
    let cases ← d.ctors.mapM fun c => do
      let frames := Frame.guard (.app (Naming.isCtor dt c.name) [s]) :: frames
      match bodies.find? (·.1.ctor == c.name) with
      | none => return assertUnder auto frames (missingCase i.span c.name)
      | some (p, body) => do
        let bindings ← caseBindings d dt p s
        body (.bind bindings :: frames)
    return first ++ cases.flatten
  | .call i f receiver args => do
    let first ← check? v limits frames receiver
    let rest ← checkList v limits frames args
    return first ++ rest ++ (← checkNode v limits frames (.call i f receiver args))

/-- The statements of an optional expression. -/
def check? (v : View) (limits : Limits) (frames : List Frame) :
    Option Source.Expr → ExprM (List IL.Stmt)
  | none => return []
  | some e => check v limits frames e

/-- The statements of several expressions. -/
def checkList (v : View) (limits : Limits) (frames : List Frame) :
    List Source.Expr → ExprM (List IL.Stmt)
  | [] => return []
  | e :: es => do
    let first ← check v limits frames e
    return first ++ (← checkList v limits frames es)

/-- The statements of keys and values. -/
def checkEntries (v : View) (limits : Limits) (frames : List Frame) :
    List (Source.Expr × Source.Expr) → ExprM (List IL.Stmt)
  | [] => return []
  | (k, e) :: rest => do
    let first ← check v limits frames k
    let second ← check v limits frames e
    return first ++ second ++ (← checkEntries v limits frames rest)

/-- The statements of the values of a let. -/
def checkBindings (v : View) (limits : Limits) (frames : List Frame) :
    List (String × Source.Expr) → ExprM (List IL.Stmt)
  | [] => return []
  | (_, e) :: rest => do
    let first ← check v limits frames e
    return first ++ (← checkBindings v limits frames rest)

/-- For every match case, its statements under the frames it will be reached by. -/
def checkArms (v : View) (limits : Limits) :
    List (Pattern × Source.Expr) → List (Pattern × (List Frame → ExprM (List IL.Stmt)))
  | [] => []
  | (p, e) :: rest => (p, fun frames => check v limits frames e) :: checkArms v limits rest

end

/-- Statements that assert an expression is defined and leave the facts of its calls behind. -/
def definedness (v : View) (limits : Limits) (e : Source.Expr) : ExprM (List IL.Stmt) :=
  check v limits [] e

/-- The definedness of several expressions, one after the other. -/
def definednessOfAll (v : View) (limits : Limits) (es : List Source.Expr) :
    ExprM (List IL.Stmt) :=
  checkList v limits [] es

/-! ## As formulas -/

/-- What is collected: obligations, or the facts of calls. -/
inductive Collected where
  | obligations
  | facts
deriving DecidableEq, Inhabited

/-- What the outermost operation of an expression contributes. -/
def collectNode (kind : Collected) (v : View) (e : Source.Expr) : ExprM (List IL.Expr) := do
  let found ← match kind with
    | .obligations => do pure ((← nodeObligations v {} e).map (·.cond))
    | .facts => do pure (← canCallFact? v e).toList
  return found.filter fun c => !c.isTrue

/-- What a constructor without a match case contributes. -/
def collectMissing (kind : Collected) (span : Span) (ctor : String) : List IL.Expr :=
  match kind with
  | .obligations => [(missingCase span ctor).cond]
  | .facts => []

mutual

/-- The formulas of an expression, one for each statement of its kind in `definedness`. -/
def collect (kind : Collected) (v : View) : Source.Expr → ExprM (List IL.Expr)
  | .bool .. | .int .. | .null .. | .var .. | .this .. => return []
  | .field i e f => do
    let inner ← collect kind v e
    return inner ++ (← collectNode kind v (.field i e f))
  | .arrayLength i e => do
    let inner ← collect kind v e
    return inner ++ (← collectNode kind v (.arrayLength i e))
  | .destruct i e d c f => do
    let inner ← collect kind v e
    return inner ++ (← collectNode kind v (.destruct i e d c f))
  | .isCtor _ e _ _ | .fresh _ e | .unary _ _ e => collect kind v e
  | .index i a b => do
    let first ← collect kind v a
    let second ← collect kind v b
    return first ++ second ++ (← collectNode kind v (.index i a b))
  | .slice i e lo hi => do
    let inner ← collect kind v e
    let lower ← collect? kind v lo
    let upper ← collect? kind v hi
    return inner ++ lower ++ upper ++ (← collectNode kind v (.slice i e lo hi))
  | .update i a b c => do
    let first ← collect kind v a
    let second ← collect kind v b
    let third ← collect kind v c
    return first ++ second ++ third ++ (← collectNode kind v (.update i a b c))
  | .display _ _ es => collectList kind v es
  | .ctor i d c es => do
    let inner ← collectList kind v es
    return inner ++ (← collectNode kind v (.ctor i d c es))
  | .mapDisplay _ entries => collectEntries kind v entries
  | .old _ e => collect kind v.old e
  | .binary i op a b => do
    match guardOfFirst? op with
    | some guard => do
      let auto := (← ExprM.options).autoTriggers
      let x ← lowerExpr v a
      let first ← collect kind v a
      let second ← collect kind v b
      return first ++ (Frame.guard (guard x)).under auto second
    | none => do
      let first ← collect kind v a
      let second ← collect kind v b
      return first ++ second ++ (← collectNode kind v (.binary i op a b))
  | .quant _ _ binders range body _ _ => do
    let auto := (← ExprM.options).autoTriggers
    let inner ← match range with
      | none => collect kind v body
      | some r => do
        let first ← collect kind v r
        let x ← lowerExpr v r
        let rest ← collect kind v body
        pure (first ++ (Frame.guard x).under auto rest)
    return (← Frame.ofBinders v binders).under auto inner
  | .setComp _ binders range term => do
    let auto := (← ExprM.options).autoTriggers
    let first ← collect kind v range
    let inner ← match term with
      | none => pure first
      | some t => do
        let x ← lowerExpr v range
        let rest ← collect kind v t
        pure (first ++ (Frame.guard x).under auto rest)
    return (← Frame.ofBinders v binders).under auto inner
  | .mapComp _ binder range term => do
    let auto := (← ExprM.options).autoTriggers
    let first ← collect kind v range
    let x ← lowerExpr v range
    let rest ← collect kind v term
    return (← Frame.ofBinders v [binder]).under auto
      (first ++ (Frame.guard x).under auto rest)
  | .letIn _ bindings body => do
    let auto := (← ExprM.options).autoTriggers
    let first ← collectBindings kind v bindings
    let values ← lowerBindings v bindings
    let rest ← collect kind v body
    return first ++ (Frame.bind values).under auto rest
  | .ite _ c a b => do
    let auto := (← ExprM.options).autoTriggers
    let x ← lowerExpr v c
    let first ← collect kind v c
    let thn ← collect kind v a
    let els ← collect kind v b
    return first ++ (Frame.guard x).under auto thn ++ (Frame.guard x.neg).under auto els
  | .cases i e arms => do
    let auto := (← ExprM.options).autoTriggers
    let dt ← matchedDatatype e.typ
    let s ← lowerExpr v e
    let first ← collect kind v e
    let d ← ExprM.datatype dt
    let bodies := collectArms kind v arms
    let cases ← d.ctors.mapM fun c => do
      let found ← match bodies.find? (·.1.ctor == c.name) with
        | none => pure (collectMissing kind i.span c.name)
        | some (p, body) => do
          let bindings ← caseBindings d dt p s
          pure ((Frame.bind bindings).under auto (← body))
      return (Frame.guard (.app (Naming.isCtor dt c.name) [s])).under auto found
    return first ++ cases.flatten
  | .call i f receiver args => do
    let first ← collect? kind v receiver
    let rest ← collectList kind v args
    return first ++ rest ++ (← collectNode kind v (.call i f receiver args))

/-- The formulas of an optional expression. -/
def collect? (kind : Collected) (v : View) : Option Source.Expr → ExprM (List IL.Expr)
  | none => return []
  | some e => collect kind v e

/-- The formulas of several expressions. -/
def collectList (kind : Collected) (v : View) : List Source.Expr → ExprM (List IL.Expr)
  | [] => return []
  | e :: es => do
    let first ← collect kind v e
    return first ++ (← collectList kind v es)

/-- The formulas of keys and values. -/
def collectEntries (kind : Collected) (v : View) :
    List (Source.Expr × Source.Expr) → ExprM (List IL.Expr)
  | [] => return []
  | (k, e) :: rest => do
    let first ← collect kind v k
    let second ← collect kind v e
    return first ++ second ++ (← collectEntries kind v rest)

/-- The formulas of the values of a let. -/
def collectBindings (kind : Collected) (v : View) :
    List (String × Source.Expr) → ExprM (List IL.Expr)
  | [] => return []
  | (_, e) :: rest => do
    let first ← collect kind v e
    return first ++ (← collectBindings kind v rest)

/-- For every match case, its formulas. -/
def collectArms (kind : Collected) (v : View) :
    List (Pattern × Source.Expr) → List (Pattern × ExprM (List IL.Expr))
  | [] => []
  | (p, e) :: rest => (p, collect kind v e) :: collectArms kind v rest

end

/-- That every operation in an expression is defined. -/
def isTotal (v : View) (e : Source.Expr) : ExprM IL.Expr := do
  return .conj (← collect .obligations v e)

/-- The facts of all calls in an expression, under the conditions that reach them. -/
def canCall (v : View) (e : Source.Expr) : ExprM IL.Expr := do
  return .conj (← collect .facts v e)

end ContractLowering
