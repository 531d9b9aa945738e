import ContractLowering.Lowering.Assign

/-!
# Method calls

A call goes to one of three procedures of the method, by the way it leaves the caller: within the
recursion of the caller, within its module, or out of it. Arguments and results pass through
fresh locals.
-/

namespace ContractLowering

open IL Source

/-- The procedure that a call from the current code goes to. -/
def callKind (callee : Path) : ExprM ProcKind := do
  let inRecursion ← match (← ExprM.env).member with
    | some m => ExprM.inSameComponent m callee
    | none => pure false
  if inRecursion then return .coCall
  else if ← ExprM.isSameModule callee then return .intraModuleCall
  else return .interModuleCall

/-- Stores an argument in a fresh local. -/
def passArg (s : Srt) (value : IL.Expr) : BodyM IL.Expr := do
  BodyM.storeIn (Naming.callArg (← DeclM.freshId)) s value

/-- Passes the receiver of a call to a method of a class. -/
def passReceiver (v : View) (receiver : Option Source.Expr) : BodyM IL.Expr := do
  let r ← match receiver with
    | none => pure v.thisExpr
    | some e => do
      let x ← BodyM.value v e
      BodyM.assertNonNull e x
      pure x
  passArg Prelude.refSort r

/-- Passes the arguments of a call, each with the name of its parameter. -/
def passArgs (v : View) (params : List Source.Binder) (args : List Source.Expr) :
    BodyM (List (String × IL.Expr)) :=
  (args.zip params).mapM fun (arg, param) => do
    let x := Boxing.convert arg.typ param.2 (← BodyM.value v arg)
    BodyM.assertNat arg param.2 x
    return (param.1, ← passArg param.2.sort x)

/-- A fresh local for every result of a method. -/
def resultLocals (outs : List Source.Binder) : DeclM (List String) :=
  outs.mapM fun out => do
    let x := Naming.callOut (← DeclM.freshId)
    DeclM.declareLocal x out.2.sort
    return x

/-- Lowers a call. Whatever the callee may modify the caller may modify too, and a call into the
caller's recursion goes down. -/
def Body.lowerCall (b : Body) (v : View) (span : Span) (m : Path)
    (receiver : Option Source.Expr) (args : List Source.Expr) (outs : List Lhs) :
    BodyM Unit := do
  let callee ← ExprM.ofExcept ((← DeclM.context).method m)
  let targets ← outs.mapM (Target.ofLhs v)
  let this ← match callee.owner with
    | none => pure []
    | some _ => do pure [(Naming.this, ← passReceiver v receiver)]
  let bindings := this ++ (← passArgs v callee.ins args)
  let inner := { v with this := none }
  if !callee.modifies.isEmpty then
    let contained ← frameContains inner callee.modifies Heap.obj
    BodyM.assert (.error "call may violate context's modifies clause" span)
      (frameIncludes v (.lets bindings contained))
  match b.termination with
  | none => pure ()
  | some entry => do
    let measure := Measure.ofMember callee.decreases callee.span callee.ins
    let checks ← Termination.callChecks inner entry m measure bindings span
    BodyM.add (checks.map fun c => .assert c.2 c.1)
  let kind ← callKind m
  let results ← resultLocals callee.outs
  BodyM.add [.call (Naming.proc m kind) (bindings.map (·.2)) results]
  ((targets.zip results).zip callee.outs).forM fun ((target, x), out) =>
    target.store (Boxing.convert out.2 target.typ (.var x))

end ContractLowering
