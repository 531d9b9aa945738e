import ContractLowering.Lowering.CallStmt

/-!
# Lowering statements

Branches whose choice does not matter, such as the steps of a calculation or the proof of a
forall statement, become branches of a free choice that end in `assume false`, so that they are
checked and not continued.

A loop becomes an endless one that is left by breaks. Besides its invariants it keeps what every
iteration keeps: a well-formed heap, the frame, the types of assigned variables and the measure.
Its invariants are checked to be defined in an arbitrary iteration, of which the witness variable
tells that nothing is known.
-/

namespace ContractLowering

open IL Source

/-- Branches of which the first whose test holds is taken, and the last one without a test. -/
def cascade : List (Option IL.Expr × List IL.Stmt) → List IL.Stmt
  | [] => []
  | [(_, arm)] => arm
  | (test, arm) :: rest => [.ifElse test arm (cascade rest)]

/-- Branches of a free choice. -/
def freeChoice (arms : List (List IL.Stmt)) : List IL.Stmt := cascade (arms.map (none, ·))

/-- The operator of a relation between the lines of a calculation. -/
def Source.CalcOp.toBinOp : CalcOp → Source.BinOp
  | .eq => .eq
  | .lt => .lt
  | .le => .le
  | .gt => .gt
  | .ge => .ge
  | .implies => .implies
  | .iff => .iff

/-! ## Forall statements -/

/-- Gives bound variables arbitrary values in their range. -/
def havocDomain (v : View) (d : Domain) : BodyM Unit := do
  d.binders.forM fun b => do
    DeclM.declareLocal b.1 b.2.sort
    BodyM.havoc b.1
  BodyM.assume (← bindersWhere v.heap d.binders)
  match d.range with
  | none => return ()
  | some r => BodyM.assume (← BodyM.value v r)

/-- That bound variables have values in their range. -/
def domainHolds (v : View) (d : Domain) : ExprM IL.Expr := do
  let wheres ← bindersWhere v.heap d.binders
  let r ← lowerExpr? v d.range
  return .conj (wheres :: r.toList)

/-- The domain with copies of its variables. -/
def Source.Domain.copy (d : Domain) (n : Nat) (s : Subst) : Domain :=
  ⟨Induction.renamed n d.binders, d.range.map (·.subst s)⟩

/-- The target with a substitution applied. -/
def Source.Lhs.subst (s : Subst) : Lhs → Lhs
  | .var span x t => .var span x t
  | .field span e f => .field span (e.subst s) f
  | .index span a i => .index span (a.subst s) (i.subst s)
  | .range span a lo hi => .range span (a.subst s) (lo.subst s) (hi.subst s)

/-- The location that a forall assignment writes, and the type of its values. -/
def forallLocation (v : View) : Lhs → DeclM (IL.Expr × IL.Expr × Typ)
  | .field _ obj fid => do
    let f ← ExprM.field fid
    let h ← Heap.fieldHandle f
    return (← lowerExpr v obj, .var h.name, f.typ)
  | .index _ arr idx => do
    let i ← lowerExpr v idx
    let a ← lowerExpr v arr
    return (a, Prelude.indexField i, ← arrayElem arr)
  | .var span .. | .range span .. =>
    DeclM.reject (.error "a forall statement must assign to a field or an array element" span)

/-- An expression boxed as a value of a type. -/
def boxedValue (v : View) (t : Typ) (e : Source.Expr) : ExprM IL.Expr := do
  return Boxing.box t (Boxing.convert e.typ t (← lowerExpr v e))

/-- Asserts that different values of the bound variables write different locations, or the same
value. -/
def assertInjective (v : View) (span : Span) (d : Domain) (lhs : Lhs) (e : Source.Expr) :
    BodyM Unit := do
  let n ← DeclM.freshId
  let s := Induction.toCopies span n d.binders
  let e' := e.subst s
  let d' := d.copy n s
  let (o, f, t) ← forallLocation v lhs
  let (o', f', _) ← forallLocation v (lhs.subst s)
  let x ← boxedValue v t e
  let x' ← boxedValue v t e'
  let same := (d.binders.zip d'.binders).map fun (b, b') => IL.Expr.eq (.var b.1) (.var b'.1)
  let holds ← domainHolds v d'
  let hyp := IL.Expr.conj [holds, (IL.Expr.conj same).neg]
  let distinct := IL.Expr.disj [.ne o o', .ne f f', .eq x x']
  BodyM.assert
    (.error ("left-hand sides for different forall-statement bound variables might refer to the "
      ++ "same location") lhs.span)
    (← allAuto (sortBinders d'.binders) (.imp hyp distinct))

/-- Changes the heap at exactly the locations that a forall assignment selects. -/
def assignForall (v : View) (d : Domain) (lhs : Lhs) (e : Source.Expr) : BodyM Unit := do
  let prev ← BodyM.havocHeap
  let before := { v with heap := prev }
  let (o, f, t) ← forallLocation before lhs
  let x ← boxedValue before t e
  let holds ← domainHolds before d
  let binders := sortBinders d.binders
  BodyM.assume (← allAuto binders
    (.imp holds (.eq (Prelude.read Prelude.heapVar o f) x)))
  let selected := IL.Expr.ex binders [] (.conj [holds, .eq Heap.obj o, .eq Heap.fld f])
  let newRead := Prelude.read Prelude.heapVar Heap.obj Heap.fld
  BodyM.assume (.all Heap.locationBinders [[newRead]]
    (.disj [.eq newRead (Prelude.read prev Heap.obj Heap.fld), selected]))

/-- A free choice between checking something for arbitrary values of bound variables and having
its effect. -/
def forallChoice (v : View) (d : Domain) (check effect : BodyM Unit) : BodyM Unit := do
  let checked ← BodyM.block do
    havocDomain v d
    check
  let effect ← BodyM.block effect
  BodyM.add [.ifElse none (checked ++ [.assume .ff]) effect]

/-- Assumes something for all values of bound variables. -/
def assumeForall (v : View) (d : Domain) (facts : List IL.Expr) : BodyM Unit := do
  let holds ← domainHolds v d
  BodyM.assume (← allAuto (sortBinders d.binders) (.imp holds (.conj facts)))

/-- The effect of calling a method for all values of bound variables: its ensures clauses. The
method leaves the heap alone, so its old state is the current one. -/
def forallEnsures (v : View) (d : Domain) (callee : Method) (receiver : Option Source.Expr)
    (args : List Source.Expr) : BodyM Unit := do
  let this := if callee.owner.isSome then receiver else none
  let s := Subst.ofBindings this ((callee.ins.map (·.1)).zip args)
  let inner := { v with heap := Prelude.heapVar, oldHeap := Prelude.heapVar }
  let facts ← lowerTerms inner (callee.ensures.map (·.expr.subst s))
  assumeForall v d facts

/-! ## Yields -/

/-- Appends the current value of a yield-parameter to its history. -/
def extendHistory (v : View) (i : Iterator) (y : Source.Binder) : BodyM Unit := do
  let f ← ExprM.field (i.fieldId (Naming.history y.1))
  let h ← Heap.fieldHandle f
  let history := Heap.readField Prelude.heapVar v.thisExpr h
  let extended := Prelude.seqBuild history (Boxing.box y.2 (.var y.1))
  BodyM.updateHeap v.thisExpr (.var h.name) (Boxing.box f.typ extended)

/-- Lowers a yield. After it the caller runs, which leaves the iterator and what it reads alone. -/
def Body.lowerYield (b : Body) (v : View) (span : Span) (values : Option (List Source.Expr)) :
    BodyM Unit := do
  match b.iterator, (← DeclM.state).decl.yieldCount with
  | some i, some count => do
    values.forM (b.assignOuts v)
    i.yields.forM (extendHistory v i)
    BodyM.assign count (.add (.var count) (.nat 1))
    b.establish v "possible violation of yield-ensures condition" i.yieldEnsures
    let prev ← BodyM.havocHeap
    let read ← frameContains v i.reads Heap.obj
    BodyM.assume (Heap.frameCondition prev Prelude.heapVar
      (IL.Expr.disj [.eq Heap.obj v.thisExpr, read]).neg)
    i.yieldRequires.forM fun s => do BodyM.assume (← lowerExpr v s.expr)
  | _, _ => DeclM.reject (.error "a yield statement is allowed only in iterators" span)

/-! ## Loops -/

/-- A loop whose iteration is still to be lowered. -/
structure LoopFrame where
  /-- The number in the names of its locals. -/
  number : Nat
  view : View
  measure : Measure
  /-- The components of the measure. -/
  current : List MeasureValue
  invariants : List Clause
  /-- The statements that check the contract of the loop to be defined. -/
  wellFormed : List IL.Stmt
deriving Inhabited

namespace LoopFrame

/-- The view of a loop's own contract. A modifies clause gives it a frame of its own, inside the
surrounding one. -/
def enterView (v : View) (span : Span) (n : Nat) : Option (List Source.Expr) → BodyM View
  | none => return v
  | some mods => do
    mods.forM (BodyM.define v)
    let contained ← frameContains v mods Heap.obj
    BodyM.assert (.error "loop modifies clause may violate context's modifies clause" span)
      (frameIncludes v contained)
    DeclM.declareLocal (Naming.loopFrame n) Prelude.setSort
    BodyM.assign (Naming.loopFrame n) (← frameSet v mods (some Prelude.heapVar))
    return { v with frame := some (Naming.loopFrame n) }

/-- The clauses of an invariant and the statements that check it to be defined. -/
def invariant (b : Body) (v : View) (witness : IL.Expr) (inv : Spec) :
    DeclM (List Clause × List IL.Stmt) := do
  let reverify := (← DeclM.context).options.reverifyRefined
  let e ← lowerExpr v inv.expr
  let span := inv.expr.span
  let holds := IL.Expr.imp witness e
  let checked := !inv.free && b.refinement.keepsCheck reverify inv.inherited span
  let clause := if checked then .checked (.error "loop invariant might not hold" span) holds
    else .assumed holds
  let calls ← canCall v inv.expr
  let defined ← definedness v {} inv.expr
  return ([clause, .assumed (.imp witness calls)], defined ++ [.assume e])

/-- The clauses that every loop keeps: the heap only grows, nothing outside the frame changes, and
assigned variables keep their types. -/
def kept (v : View) (preHeap : IL.Expr) (assigned : List Source.Binder) :
    DeclM (List Clause) := do
  let heap := Prelude.heapVar
  let wheres ← assigned.mapM fun b => do return (← whereClause b.2 (.var b.1) heap)
  return [.assumed (.conj [Prelude.isGoodHeap heap, Prelude.heapSucc preHeap heap]),
      .assumed (Heap.frameCondition preHeap heap (inFrame v Heap.obj))]
    ++ (wheres.filterMap id).map .assumed

/-- Enters a loop: what comes before its first iteration, and its contract. -/
def enter (b : Body) (v : View) (span : Span) (spec : LoopSpec) (guard : Option Source.Expr)
    (bodies : List Source.Stmt) : BodyM LoopFrame := do
  let n ← DeclM.freshId
  let preHeap ← BodyM.storeIn (Naming.preLoopHeap n) Prelude.heapSort Prelude.heapVar
  let view ← enterView v span n spec.modifies
  let yields := bodies.any Source.Stmt.containsYield
  let count := (← DeclM.state).decl.yieldCount.filter fun _ => yields
  let measure := Measure.ofLoop spec.decreases guard count
  let current ← Termination.values view measure
  let inits ← BodyM.snapshot (Naming.decreasesInit n) current
  DeclM.declareLocal (Naming.loopWitness n) .bool
  BodyM.havoc (Naming.loopWitness n)
  let witness := IL.Expr.var (Naming.loopWitness n)
  let invs ← spec.invariants.mapM fun inv => do invariant b view witness inv
  let keeps ← kept view preHeap (bodies.flatMap Source.Stmt.assignedLocals)
  let descent := if measure.wildcard || measure.isEmpty then []
    else [Clause.assumed (Termination.decreases true inits current)]
  let measured ← definednessOfAll view {} ((spec.decreases.map (·.exprs)).getD [])
  let defined := invs.flatMap (·.2) ++ measured ++ [.assume .ff]
  return {
    number := n
    view
    measure
    current
    invariants := invs.flatMap (·.1) ++ keeps ++ descent
    wellFormed := [.ifElse (some witness.neg) defined []] }

/-- Stores the measure at the beginning of an iteration. -/
def snapshot (l : LoopFrame) : BodyM (List MeasureValue) :=
  BodyM.snapshot (Naming.decreases l.number) l.current

/-- Asserts that an iteration made the measure smaller. -/
def assertDescent (l : LoopFrame) (span : Span) (spec : LoopSpec) (olds : List MeasureValue) :
    BodyM Unit := do
  let place := (spec.decreases.map (·.span)).getD span
  if l.measure.wildcard then return ()
  else if l.measure.isEmpty then
    BodyM.assert (.error "cannot prove termination; try supplying a decreases clause for the loop"
      place) .ff
  else
    let news ← Termination.values l.view l.measure
    BodyM.assert (Termination.message place l.measure.inferred)
      (Termination.loopCheck l.measure olds news)

/-- Appends the loop, given the lowering of an iteration, which returns the measure at its
beginning. -/
def close (l : LoopFrame) (span : Span) (spec : LoopSpec)
    (iteration : BodyM (List MeasureValue)) : BodyM Unit := do
  let body ← BodyM.block do
    let olds ← iteration
    l.assertDescent span spec olds
  let loop := IL.Stmt.loop none l.invariants (l.wellFormed ++ body)
  match spec.label with
  | none => BodyM.add [loop]
  | some label => BodyM.add [.block (some label) [loop]]

/-- Leaves the loop if its guard fails, or at any time if it has none. -/
def leaveUnless (l : LoopFrame) : Option Source.Expr → BodyM Unit
  | none => BodyM.add [.ifElse none [.leave none] []]
  | some g => do
    let x ← BodyM.value l.view g
    BodyM.add [.ifElse (some x.neg) [.leave none] []]

end LoopFrame

/-! ## Statements -/

/-- Lowers a declaration of a local. -/
def lowerVarDecl (v : View) (x : String) (t : Typ) (rhs : Option Rhs) : BodyM Unit := do
  DeclM.declareLocal x t.sort
  match rhs with
  | none => do
    BodyM.havoc x
    BodyM.assume? (← whereClause t (.var x) Prelude.heapVar)
  | some r => do BodyM.assign x (← evalRhs v t r)

/-- Binds the variables of a match case as locals. -/
def bindPattern (d : Datatype) (dt : Path) (p : Pattern) (s : IL.Expr) : BodyM Unit := do
  let bindings ← caseBindings d dt p s
  (p.binders.zip bindings).forM fun (b, x, value) => do
    DeclM.declareLocal x b.2.sort
    BodyM.assign x value

/-- The alternatives as branches, and the branch that is taken when no guard holds. -/
def alternativesChoice (alts : List (IL.Expr × List IL.Stmt)) (otherwise : List IL.Stmt) :
    List IL.Stmt :=
  let none := IL.Expr.neg (.disj (alts.map (·.1)))
  freeChoice (alts.map (fun (g, arm) => .assume g :: arm) ++ [.assume none :: otherwise])

/-- The relation that a step of a calculation claims. -/
def calcRelation (prev : Source.Expr) (op : CalcOp) (line : Source.Expr) : Source.Expr :=
  .mkRel line.span op.toBinOp prev line

/-- The lines of a calculation. -/
def calcLines (first : Source.Expr) (steps : List ((CalcOp × Source.Expr) × Option Source.Stmt)) :
    List Source.Expr :=
  first :: steps.map (·.1.2)

mutual

/-- Lowers a statement. -/
def Body.lowerStmt (b : Body) (v : View) : Source.Stmt → BodyM Unit
  | .block _ body => b.lowerStmts v body
  | .varDecl _ x t rhs => lowerVarDecl v x t rhs
  | .assign span lhss rhss => lowerAssign v span lhss rhss
  | .call span m receiver args outs => b.lowerCall v span m receiver args outs
  | .ifElse _ guard thn els => do
    let g ← match guard with
      | none => pure none
      | some e => do pure (some (← BodyM.value v e))
    let a ← BodyM.block (b.lowerStmt v thn)
    let c ← BodyM.block (b.lowerStmt? v els)
    BodyM.add [.ifElse g a c]
  | .altIf span alts => do
    (alts.map (·.1)).forM (BodyM.define v)
    let guards ← lowerTerms v (alts.map (·.1))
    BodyM.assert (.error "alternative cases fail to cover all possibilities" span) (.disj guards)
    let arms ← b.lowerAlternatives v [] alts
    BodyM.add (alternativesChoice arms [.assume .ff])
  | .loop span spec guard body => do
    let l ← LoopFrame.enter b v span spec guard body.toList
    l.close span spec do
      l.leaveUnless guard
      let olds ← l.snapshot
      b.lowerStmt? l.view body
      return olds
  | .altLoop span spec alts body => do
    let bodies := match body with
      | some s => [s]
      | none => alts.map (·.2)
    let l ← LoopFrame.enter b v span spec none bodies
    l.close span spec do
      (alts.map (·.1)).forM (BodyM.define l.view)
      let (olds, before) ← BodyM.inside l.snapshot
      let arms ← b.lowerAlternatives l.view before alts
      BodyM.add (alternativesChoice arms [.leave none])
      return olds
  | .cases span e arms => do
    BodyM.define v e
    let dt ← matchedDatatype e.typ
    let d ← ExprM.datatype dt
    let s ← BodyM.temp Prelude.datatypeSort (← lowerExpr v e)
    let bodies := b.lowerArms v arms
    let branches ← d.ctors.mapM fun c => do
      let arm ← match bodies.find? (·.1.ctor == c.name) with
        | some (p, body) => BodyM.block do
          bindPattern d dt p s
          body
        | none =>
          let missing := missingCase span c.name
          pure [.assert missing.msg missing.cond]
      return (some (IL.Expr.app (Naming.isCtor dt c.name) [s]), arm)
    BodyM.add (cascade branches)
  | .calc _ first steps => do
    let opening ← BodyM.block (BodyM.define v first)
    let checked ← b.lowerSteps v first steps
    let calls ← ((calcLines first steps).mapM (canCall v) : ExprM (List IL.Expr))
    let arms := (opening :: checked.map (·.1)).map fun arm => arm ++ [IL.Stmt.assume .ff]
    let conclusion := calls.map IL.Stmt.assume ++ [.assume (.conj (checked.map (·.2)))]
    BodyM.add (freeChoice (arms ++ [conclusion]))
  | .forallAssign span d lhs e =>
    forallChoice v d
      (do
        let target ← Target.ofLhs v lhs
        let _ ← evalRhs v target.typ (.expr e)
        assertInjective v span d lhs e)
      (assignForall v d lhs e)
  | .forallCall span d m receiver args => do
    let (callee, checked) ← BodyM.inside do
      havocDomain v d
      let callee ← ExprM.ofExcept ((← DeclM.context).method m)
      if !callee.modifies.isEmpty then
        DeclM.reject (.error
          "a forall statement can only call methods without a modifies clause" span)
      b.lowerCall v span m receiver args []
      return callee
    let effect ← BodyM.block (forallEnsures v d callee receiver args)
    BodyM.add [.ifElse none (checked ++ [.assume .ff]) effect]
  | .forallProof _ d ensures body =>
    forallChoice v d
      (do
        b.lowerStmt v body
        b.establish v "possible violation of postcondition of forall statement" ensures)
      (do
        let facts ← lowerTerms v (ensures.map (·.expr))
        assumeForall v d facts)
  | .assert _ e inherited => do
    BodyM.define v e
    b.assertGoal v e inherited "assertion might not hold"
  | .assume _ e => do BodyM.assume (← BodyM.value v e)
  | .ret _ values => do
    values.forM (b.assignOuts v)
    BodyM.add [.ret]
  | .yield span values => b.lowerYield v span values
  | .leave _ label => BodyM.add [.leave label]

/-- Lowers an optional statement. -/
def Body.lowerStmt? (b : Body) (v : View) : Option Source.Stmt → BodyM Unit
  | none => return ()
  | some s => b.lowerStmt v s

/-- Lowers statements one after the other. -/
def Body.lowerStmts (b : Body) (v : View) : List Source.Stmt → BodyM Unit
  | [] => return ()
  | s :: ss => do
    b.lowerStmt v s
    b.lowerStmts v ss

/-- Lowers alternatives: each guard, and the statements that follow it. -/
def Body.lowerAlternatives (b : Body) (v : View) (before : List IL.Stmt) :
    List (Source.Expr × Source.Stmt) → BodyM (List (IL.Expr × List IL.Stmt))
  | [] => return []
  | (e, s) :: rest => do
    let g ← lowerExpr v e
    let arm ← BodyM.block (b.lowerStmt v s)
    return (g, before ++ arm) :: (← b.lowerAlternatives v before rest)

/-- For every match case, its statements. -/
def Body.lowerArms (b : Body) (v : View) :
    List (Pattern × Source.Stmt) → List (Pattern × BodyM Unit)
  | [] => []
  | (p, s) :: rest => (p, b.lowerStmt v s) :: b.lowerArms v rest

/-- Lowers the steps of a calculation, each after the line before it: the statements that check
it, and what it shows. -/
def Body.lowerSteps (b : Body) (v : View) (prev : Source.Expr) :
    List ((CalcOp × Source.Expr) × Option Source.Stmt) → BodyM (List (List IL.Stmt × IL.Expr))
  | [] => return []
  | ((op, line), hint) :: rest => do
    let relation := calcRelation prev op line
    let arm ← BodyM.block do
      BodyM.assume (← canCall v prev)
      BodyM.define v line
      b.lowerStmt? v hint
      b.assertGoal v relation false
        "the calculation step between the previous line and this line might not hold"
    let shown ← lowerExpr v relation
    return (arm, shown) :: (← b.lowerSteps v line rest)

end

end ContractLowering
