import ContractLowering.Lowering.Stmt
import ContractLowering.Proofs.Lowering.Emits

/-!
# The steps of assignments, calls and matches

Long lowerings as sequences of named steps, so that what is said of them is said step by step.
-/

namespace ContractLowering

open IL Source

/-! ## Assignments -/

/-- Refuses targets among which a variable occurs twice. -/
def rejectRepeated (span : Span) (targets : List Target) : BodyM Unit :=
  if (orderedPairs targets).any fun p => p.1.isSameVar p.2 then
    DeclM.reject (.error "a variable occurs twice on the left-hand side" span)
  else pure ()

/-- Keeps a value in a fresh local if other values are computed before it is stored, or if it is
stored several times. -/
def keepValue (several : Bool) (t : Target) (x : IL.Expr) : BodyM IL.Expr :=
  if several || t.isRange then BodyM.temp t.typ.sort x else pure x

/-- Evaluates the value of a target. -/
def evalStore (v : View) (several : Bool) (p : (Lhs × Target) × Rhs) : BodyM Store := do
  let x ← evalRhs v p.1.2.typ p.2
  let x ← keepValue several p.1.2 x
  return ⟨p.1.1.span, p.1.2, x⟩

/-- The steps of an assignment. -/
theorem lowerAssign_eq (v : View) (span : Span) (lhss : List Lhs) (rhss : List Rhs) :
    lowerAssign v span lhss rhss = (do
      let targets ← lhss.mapM (Target.ofLhs v)
      rejectRepeated span targets
      let stores ← ((lhss.zip targets).zip rhss).mapM (evalStore v (targets.length > 1))
      (orderedPairs stores).forM fun p => assertDistinct p.1 p.2
      stores.forM fun s => s.target.store s.value) := by
  have store (several : Bool) : evalStore v several = fun p => do
      let x ← evalRhs v p.1.2.typ p.2
      if several || p.1.2.isRange then do
        let x ← BodyM.temp p.1.2.typ.sort x
        return ⟨p.1.1.span, p.1.2, x⟩
      else return ⟨p.1.1.span, p.1.2, x⟩ := by
    funext p
    unfold evalStore keepValue
    refine bind_congr fun x => ?_
    cases several || p.1.2.isRange <;> simp
  unfold lowerAssign rejectRepeated
  refine bind_congr fun targets => ?_
  rw [store]
  cases (orderedPairs targets).any fun p => p.1.isSameVar p.2 <;> simp

/-! ## Calls -/

namespace Body

/-- Passes the receiver of a call, if the callee belongs to a class. -/
def passThis (v : View) (callee : Method) (receiver : Option Source.Expr) :
    BodyM (List (String × IL.Expr)) :=
  match callee.owner with
  | none => pure []
  | some _ => do pure [(Naming.this, ← passReceiver v receiver)]

/-- Asserts that a call modifies what the caller may modify. -/
def assertModifies (v : View) (span : Span) (callee : Method)
    (bindings : List (String × IL.Expr)) : BodyM Unit :=
  if !callee.modifies.isEmpty then do
    let contained ← frameContains { v with this := none } callee.modifies Heap.obj
    BodyM.assert (.error "call may violate context's modifies clause" span)
      (frameIncludes v (.lets bindings contained))
  else pure ()

/-- Asserts that a call into the caller's recursion goes down. -/
def assertDescends (b : Body) (v : View) (span : Span) (m : Path) (callee : Method)
    (bindings : List (String × IL.Expr)) : BodyM Unit :=
  match b.termination with
  | none => pure ()
  | some entry => do
    let measure := Measure.ofMember callee.decreases callee.span callee.ins
    let checks ← Termination.callChecks { v with this := none } entry m measure bindings span
    BodyM.add (checks.map fun c => .assert c.2 c.1)

/-- Calls the procedure and stores its results in the targets. -/
def callProcedure (m : Path) (callee : Method) (targets : List Target)
    (bindings : List (String × IL.Expr)) : BodyM Unit := do
  let kind ← callKind m
  let results ← resultLocals callee.outs
  BodyM.add [.call (Naming.proc m kind) (bindings.map (·.2)) results]
  ((targets.zip results).zip callee.outs).forM fun ((target, x), out) =>
    target.store (Boxing.convert out.2 target.typ (.var x))

/-- The steps of a call. -/
theorem lowerCall_eq (b : Body) (v : View) (span : Span) (m : Path)
    (receiver : Option Source.Expr) (args : List Source.Expr) (outs : List Lhs) :
    b.lowerCall v span m receiver args outs = (do
      let c ← DeclM.context
      let callee ← ExprM.ofExcept (c.method m)
      let targets ← outs.mapM (Target.ofLhs v)
      let recv ← passThis v callee receiver
      let rest ← passArgs v callee.ins args
      assertModifies v span callee (recv ++ rest)
      b.assertDescends v span m callee (recv ++ rest)
      callProcedure m callee targets (recv ++ rest)) := by
  unfold lowerCall passThis assertModifies assertDescends callProcedure
  refine bind_congr fun c => bind_congr fun callee => bind_congr fun targets => ?_
  cases callee.owner <;> cases b.termination <;> cases callee.modifies.isEmpty <;>
    simp

/-! ## Match cases -/

theorem lowerArms_eq (b : Body) (v : View)
    (arms : List (Pattern × Source.Stmt)) :
    b.lowerArms v arms = arms.map fun a => (a.1, b.lowerStmt v a.2) := by
  induction arms with
  | nil => rfl
  | cons a arms ih => exact congrArg _ ih

end Body

end ContractLowering
