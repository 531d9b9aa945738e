import ContractLowering.Lowering.Stmt

/-!
# Lowering methods

A method becomes a procedure for every way it is called, all with the same contract, a procedure
that checks that the contract is defined, and one whose implementation is the body. Besides the
clauses of the source the contract has free ones: the heap is well formed and only grows,
parameters have values of their types, and what is not in the modifies clause does not change.
-/

namespace ContractLowering

open IL Source

namespace Source.Method

/-- The view of a method's contract and body. -/
def view (m : Method) (frame : Option String) : View :=
  { heap := Prelude.heapVar
    oldHeap := .old Prelude.heapName
    this := m.owner.map fun _ => Naming.this
    frame }

/-- The receiver and the in-parameters. -/
def params (m : Method) : List IL.Binder :=
  (if m.owner.isSome then [(Naming.this, Prelude.refSort)] else []) ++ sortBinders m.ins

/-! ## Contracts -/

/-- The clauses of a contract clause: its parts, followed by the calls it makes. With
`isRefined`, parts that need no second look are assumed. -/
def specClauses (m : Method) (v : View) (note : String) (isRefined : Bool) (s : Spec) :
    DeclM (List Clause) := do
  let reverify := (← DeclM.context).options.reverifyRefined
  let clauses ←
    if s.free then do pure [Clause.assumed (← lowerExpr v s.expr)]
    else do
      let parts ← split v s.expr true
      pure (parts.map fun p =>
        if p.kind.isChecked
            && (!isRefined || m.refinement.keepsCheck reverify s.inherited p.span) then
          Clause.checked (.error note p.span) p.expr
        else .assumed p.expr)
  return clauses ++ [.assumed (← canCall v s.expr)]

/-- The clauses of several contract clauses. -/
def specsClauses (m : Method) (v : View) (note : String) (isRefined : Bool) (specs : List Spec) :
    DeclM (List Clause) := do
  return (← specs.mapM (m.specClauses v note isRefined)).flatten

/-- What holds on entry: a well-formed heap and parameters of their types. -/
def entryFacts (m : Method) (heap : IL.Expr) : ExprM (List IL.Expr) := do
  let this ← match m.owner with
    | none => pure []
    | some p => do pure [← Heap.receiverWhere p (.var Naming.this) heap]
  let ins ← m.ins.mapM fun p => whereClauseExtended p.2 (.var p.1) heap
  return Prelude.isGoodHeap heap :: (this ++ ins.filterMap id)

/-- What holds on exit: the heap only grew, out-parameters have values of their types, only what
may be modified changed, and a lemma changed nothing. -/
def exitFacts (m : Method) (v : View) : ExprM (List IL.Expr) := do
  let outs ← whereClauses v.heap m.outs
  let mayChange ← frameContains v.old m.modifies Heap.obj
  return [.conj [Prelude.isGoodHeap v.heap, Prelude.heapSucc v.oldHeap v.heap]] ++ outs
    ++ [Heap.frameCondition v.oldHeap v.heap mayChange]
    ++ if m.isLemma then [.eq v.heap v.oldHeap] else []

/-- Emits the procedure for a kind of call, or for the body. -/
def emitProcedure (m : Method) (kind : ProcKind) : DeclM Unit := do
  let v := m.view none
  let isRefined := kind == .impl
  let onEntry ← m.entryFacts v.heap
  let requires ←
    m.specsClauses v "a precondition for this call might not hold" isRefined m.requires
  let onExit ← m.exitFacts v
  let ensures ←
    m.specsClauses v "a postcondition might not hold on this return path" isRefined m.ensures
  DeclM.emit (.procedure
    { name := Naming.proc m.name kind
      params := m.params
      outs := sortBinders m.outs
      requires := onEntry.map .assumed ++ requires
      modifies := [Prelude.heapName]
      ensures := onExit.map .assumed ++ ensures })

/-! ## Well-formedness of the contract -/

/-- Checks that a contract is defined, its postcondition in any later state that the modifies
clause allows. -/
def checkContract (m : Method) (v : View) : BodyM Unit := do
  let entry := m.requires.map (·.expr) ++ m.modifies ++ (m.decreases.map (·.exprs)).getD []
  entry.forM (BodyM.defineAndAssume v {})
  BodyM.havoc Prelude.heapName
  let onExit ← m.exitFacts v
  onExit.forM BodyM.assume
  m.outs.forM fun p => do
    BodyM.havoc p.1
    BodyM.assume? (← whereClause p.2 (.var p.1) v.heap)
  m.ensures.forM fun s => BodyM.defineAndAssume v {} s.expr

/-- Emits the procedure that checks the contract, with its implementation. -/
def emitCheck (m : Method) : DeclM Unit := do
  let v := m.view none
  let name := Naming.proc m.name .checkWellformed
  let params := m.params
  let outs := sortBinders m.outs
  let onEntry ← m.entryFacts v.heap
  DeclM.emit (.procedure
    { name, params, outs, requires := onEntry.map .assumed, modifies := [Prelude.heapName]
      ensures := [] })
  let ((), body) ← (m.checkContract v).run
  let locals ← DeclM.takeLocals
  DeclM.emit (.implementation { name, params, outs, locals, body })

/-! ## Bodies -/

/-- Assumes the induction hypothesis of a lemma that is proved by induction. -/
def assumeHypothesis (m : Method) (v : View) : BodyM Unit := do
  let requires := m.requires.map (·.expr)
  let ensures := m.ensures.map (·.expr)
  let vars ← inductionVars m.induction m.ins (requires ++ ensures)
  if !vars.isEmpty then
    BodyM.assume (← lemmaHypothesis v m.span m.ins vars requires ensures)

/-- The body of a method, after its frame and measure on entry are stored. -/
def lowerBody (m : Method) (body : Source.Stmt) : BodyM Unit := do
  let v := m.view (some Naming.frame)
  DeclM.declareLocal Naming.frame Prelude.setSort
  BodyM.assign Naming.frame (← frameSet v m.modifies (some Prelude.heapVar))
  let outs ← whereClauses Prelude.heapVar m.outs
  outs.forM BodyM.assume
  let measure := Measure.ofMember m.decreases m.span m.ins
  let olds ← BodyM.snapshot (Naming.decreasesInit 0) (← Termination.values v measure)
  if m.isLemma then m.assumeHypothesis v
  let b : Body :=
    { refinement := m.refinement
      termination := some ⟨m.name, olds, measure.inferred, measure.wildcard⟩
      outs := m.outs }
  b.lowerStmt v body

/-- Emits the body of a method. Parameters are not locals. -/
def emitBody (m : Method) (body : Source.Stmt) : DeclM Unit := do
  m.emitProcedure .impl
  let ((), stmts) ← (m.lowerBody body).run
  let params := m.params
  let outs := sortBinders m.outs
  let locals ← DeclM.takeLocals
  DeclM.emit (.implementation
    { name := Naming.proc m.name .impl
      params
      outs
      locals := locals.filter fun l => !(outs ++ params).any (·.1 == l.1)
      body := stmts })

/-- Lowers a method. -/
def lower (m : Method) : DeclM Unit :=
  DeclM.within m.span m.name.module (some m.name) do
    [ProcKind.interModuleCall, .intraModuleCall, .coCall].forM m.emitProcedure
    m.emitCheck
    m.body.forM m.emitBody

end Source.Method

end ContractLowering
