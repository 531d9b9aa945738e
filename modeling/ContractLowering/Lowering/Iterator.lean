import ContractLowering.Lowering.Class

/-!
# Lowering iterators

An iterator becomes the class through which callers see it, and a procedure whose implementation
is its body. The body runs in a fresh iterator object; its yield-parameters are locals, and a
counter of yields is the measure of loops that yield.
-/

namespace ContractLowering

open IL Source

namespace Source.Iterator

/-- The view of an iterator's body. -/
def view (frame : Option String) : View :=
  { heap := Prelude.heapVar, oldHeap := .old Prelude.heapName, this := some Naming.this, frame }

/-- The iterator object and the in-parameters. -/
def params (i : Iterator) : List IL.Binder := (Naming.this, Prelude.refSort) :: sortBinders i.ins

/-- The fields of a fresh iterator object: they hold the in-parameters and empty histories. -/
def initialFields (i : Iterator) : List Source.Expr :=
  let this := Source.Expr.mkThis i.span i.selfTyp
  i.ins.map (fun x =>
      .mkRel i.span .eq (i.fieldOf this x.1 x.2) (.mkVar i.span x.1 x.2))
    ++ i.yields.map fun y =>
      .mkRel i.span .eq (i.historyOf this y) (i.emptyOf .seq (.seq y.2))

/-- What holds when the body starts. -/
def entryFacts (i : Iterator) (v : View) : ExprM (List IL.Expr) := do
  let this ← Heap.receiverWhere i.path (.var Naming.this) v.heap
  let ins ← i.ins.mapM fun x => whereClauseExtended x.2 (.var x.1) v.heap
  let facts ← lowerTerms v (i.initialFields ++ i.requires.map (·.expr))
  return [Prelude.isGoodHeap v.heap, this] ++ ins.filterMap id ++ facts

/-- What the body establishes when it ends. -/
def exitClauses (i : Iterator) (v : View) : ExprM (List Clause) :=
  i.insideView.ensures.mapM fun s => do
    let e ← lowerExpr v s.expr
    return if s.free then .assumed e
      else .checked (.error "possible violation of iterator postcondition" s.expr.span) e

/-- The body, after frame, counter and measure are initialised. -/
def bodyStmts (i : Iterator) (body : Source.Stmt) : BodyM Unit := do
  let v := view (some Naming.frame)
  DeclM.declareLocal Naming.frame Prelude.setSort
  BodyM.assign Naming.frame (← frameSet v i.modifies (some Prelude.heapVar))
  DeclM.declareLocal Naming.yieldCount .int
  DeclM.setYieldCount Naming.yieldCount
  BodyM.assign Naming.yieldCount (.nat 0)
  i.yields.forM fun y => do
    DeclM.declareLocal y.1 y.2.sort
    BodyM.assume? (← whereClause y.2 (.var y.1) Prelude.heapVar)
  let measure := Measure.ofMember i.decreases i.span i.ins
  let olds ← BodyM.snapshot (Naming.decreasesInit 0) (← Termination.values v measure)
  let b : Body :=
    { termination := some ⟨i.path, olds, measure.inferred, measure.wildcard⟩
      outs := i.yields
      iterator := some i.insideView }
  b.lowerStmt v body

/-- Lowers the body of an iterator. Parameters are not locals. -/
def lowerBody (i : Iterator) (body : Source.Stmt) : DeclM Unit :=
  DeclM.within i.span i.path.module (some i.path) do
    let v := view none
    let name := Naming.proc i.path .impl
    let params := i.params
    let onEntry ← i.entryFacts v
    let ensures ← i.exitClauses v
    DeclM.emit (.procedure
      { name, params, outs := [], requires := onEntry.map .assumed
        modifies := [Prelude.heapName], ensures })
    let ((), stmts) ← (i.bodyStmts body).run
    let locals ← DeclM.takeLocals
    DeclM.emit (.implementation
      { name, params, outs := [], body := stmts
        locals := locals.filter fun l => !params.any (·.1 == l.1) })

/-- Lowers an iterator: its class, then its body. -/
def lower (i : Iterator) : DeclM Unit := do
  let c ← ExprM.ofExcept ((← DeclM.context).cls i.path)
  c.lower
  i.body.forM i.lowerBody

end Source.Iterator

end ContractLowering
