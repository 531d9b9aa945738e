import ContractLowering.Lowering.BodyM

/-!
# Lowering functions

A function becomes a function of the target, a predicate that says a call of it was made, and
facts about both: what its contract ensures, what its value depends on, and its definition. Every
fact but those that relate the layers holds only where a call was made. A recursive function has
two more layers, so that its definition cannot be unfolded for ever: in the definition of the
normal layer recursive calls are limited, and limited ones have no definition.

The procedure `CheckWellformed$$f` checks that contract and body are defined, that the body reads
what it may and goes down in recursive calls, and that it establishes the postcondition.
-/

namespace ContractLowering

open IL Source

/-- The formals of a function as the facts about it see them: the bound variables, which begin
with a heap, and the arguments, which do so only if the function reads the heap. -/
structure Formals where
  binders : List IL.Binder
  args : List IL.Expr
  heap : IL.Expr
deriving Inhabited

namespace Source.Function

/-- The sorts of the parameters of a function. -/
def sorts (f : Function) : List Srt :=
  (if f.reads.isEmpty then [] else [Prelude.heapSort])
    ++ (if f.owner.isSome then [Prelude.refSort] else [])
    ++ f.params.map (·.2.sort)

/-- The receiver as a parameter, for members of a class. -/
def thisBinder (f : Function) : List IL.Binder :=
  if f.owner.isSome then [(Naming.this, Prelude.refSort)] else []

/-- The formals of a function with a name for the heap. -/
def formals (f : Function) (heap : String) : Formals :=
  let this := f.thisBinder
  { binders := (heap, Prelude.heapSort) :: (this ++ sortBinders f.params)
    args := (if f.reads.isEmpty then [] else [.var heap])
      ++ this.map (fun b => .var b.1) ++ f.params.map (fun p => .var p.1)
    heap := .var heap }

/-- The function in a layer. -/
def apply (f : Function) (layer : Layer) (args : List IL.Expr) : IL.Expr :=
  .app (Naming.layered f.name layer) args

/-- The view of facts about a function. -/
def factView (f : Function) (heap : IL.Expr) (layer : LayerMode) : View :=
  { heap, oldHeap := heap, this := f.owner.map fun _ => Naming.this, layer }

/-- A trigger on a term that mentions all formals but perhaps the heap. -/
def trigger (f : Function) (term heap : IL.Expr) : Trigger :=
  if f.reads.isEmpty then [term, Prelude.isGoodHeap heap] else [term]

/-- That the receiver, if there is one, is an object of its class. -/
def receiverHyps (f : Function) (heap : IL.Expr) : ExprM (List IL.Expr) :=
  match f.owner with
  | none => return []
  | some p => do return [← Heap.receiverWhere p (.var Naming.this) heap]

/-- That the heap is well formed and formals have values of their types. -/
def formalHyps (f : Function) (heap : IL.Expr) : ExprM (List IL.Expr) := do
  let this ← f.receiverHyps heap
  let params ← whereClauses heap f.params
  return Prelude.isGoodHeap heap :: (this ++ params)

/-- The conditions of the requires clauses. -/
def requiresExprs (f : Function) : List Source.Expr := f.requires.map (·.expr)

/-! ## Facts -/

/-- The functions of the target that a function becomes, with the sorts of their results. -/
def layers (f : Function) (recursive : Bool) : List (Layer × Srt) :=
  let result := f.result.2.sort
  [(.normal, result), (.canCall, .bool)]
    ++ if recursive then [(.limited, result), (.unrolled, result)] else []

/-- That all layers have the same values. -/
def layerFacts (f : Function) : List IL.Expr :=
  let fs := f.formals Naming.heapParam
  let binders := if f.reads.isEmpty then fs.binders.drop 1 else fs.binders
  let normal := f.apply .normal fs.args
  let limited := f.apply .limited fs.args
  let unrolled := f.apply .unrolled fs.args
  [.all binders [[normal]] (.eq normal limited), .all binders [[unrolled]] (.eq unrolled normal)]

/-- That the result of a call has its type and satisfies the ensures clauses, if they say
anything. -/
def postFact? (f : Function) : ExprM (Option IL.Expr) := do
  let fs := f.formals Naming.heapParam
  let v := f.factView fs.heap .default
  let call := f.apply .normal fs.args
  let hyps ← f.formalHyps fs.heap
  let pre ← lowerTerms v f.requiresExprs
  let typed ← whereClause f.result.2 (.var f.result.1) fs.heap
  let posts := typed.toList ++ (← lowerTerms v (f.ensures.map (·.expr)))
  if posts.isEmpty then return none
  let matrix := IL.Expr.imp (.conj (hyps ++ [f.apply .canCall fs.args] ++ pre))
    (.lets [(f.result.1, call)] (.conj posts))
  return some (.all fs.binders [f.trigger call fs.heap] matrix)

/-- That a call has the value of the body, in which further calls are made. -/
def definition (f : Function) (body : Source.Expr) (layer : Layer) : ExprM IL.Expr := do
  let fs := f.formals Naming.heapParam
  let v := f.factView fs.heap (if layer = .unrolled then .unrolled else .default)
  let call := f.apply layer fs.args
  let hyps ← f.formalHyps fs.heap
  let pre ← lowerTerms v f.requiresExprs
  let value := Boxing.convert body.typ f.result.2 (← lowerExpr v body)
  let calls ← canCall v body
  let matrix := IL.Expr.imp (.conj (hyps ++ [f.apply .canCall fs.args] ++ pre))
    (.conj [calls, .eq call value])
  return .all fs.binders [f.trigger call fs.heap] matrix

/-- A body that matches on a parameter: the position of the parameter, its datatype and the
cases. -/
def matchedParam? (f : Function) : Source.Expr → Option (Nat × Path × List (Pattern × Source.Expr))
  | .cases _ (.var i x) arms =>
    match i.typ, f.params.findIdx? (·.1 == x) with
    | .datatype dt _, some n => some (n, dt, arms)
    | _, _ => none
  | _ => none

/-- The definition at a constructor, for a body that matches on a parameter. -/
def caseDefinition (f : Function) (n : Nat) (dt : Path) (p : Pattern) (body : Source.Expr) :
    ExprM IL.Expr := do
  let param := (f.params[n]?).getD default
  let vars := p.binders.map fun b => Source.Expr.mkVar p.span b.1 b.2
  let built := Source.Expr.ctor ⟨p.span, param.2⟩ dt p.ctor vars
  let s := Subst.ofBindings none [(param.1, built)]
  let fs := f.formals Naming.heapParam
  let v := f.factView fs.heap .default
  let x ← lowerExpr v built
  let args := fs.args.set (fs.args.length - f.params.length + n) x
  let binders := fs.binders.filter (fun b => b.1 != param.1) ++ sortBinders p.binders
  let this ← f.receiverHyps fs.heap
  let wheres ← f.params.zipIdx.mapM fun (q, i) =>
    whereClause q.2 (if i = n then x else .var q.1) fs.heap
  let hyps := Prelude.isGoodHeap fs.heap :: (this ++ wheres.filterMap id)
  let pre ← lowerTerms v (f.requiresExprs.map (·.subst s))
  let body := body.subst s
  let value := Boxing.convert body.typ f.result.2 (← lowerExpr v body)
  let calls ← canCall v body
  let call := f.apply .normal args
  let matrix := IL.Expr.imp (.conj (hyps ++ [f.apply .canCall args] ++ pre))
    (.conj [calls, .eq call value])
  return .all binders [f.trigger call fs.heap] matrix

/-- That the value of a call depends on the locations in the reads clause only. -/
def frameFact (f : Function) : ExprM IL.Expr := do
  let before := f.formals Naming.heapParamOld
  let after := f.formals Naming.heapParamNew
  let v := f.factView before.heap .default
  let succ := Prelude.heapSucc before.heap after.heap
  let readBefore := Prelude.read before.heap Heap.obj Heap.fld
  let contained ← frameContains v f.reads Heap.obj
  let agree := IL.Expr.all Heap.locationBinders [[readBefore]]
    (.imp (.conj [Heap.nonNullAlloc before.heap Heap.obj, contained])
      (.eq readBefore (Prelude.read after.heap Heap.obj Heap.fld)))
  let this ← f.receiverHyps before.heap
  let hyps := [Prelude.isGoodHeap before.heap, Prelude.isGoodHeap after.heap, succ]
    ++ this ++ [agree]
  let call := f.apply .normal after.args
  return .all (before.binders.take 1 ++ after.binders) [[succ, call]]
    (.imp (.conj hyps) (.eq (f.apply .normal before.args) call))

/-! ## The procedure -/

/-- Checks that a postcondition is defined for any result. -/
def checkPost (f : Function) (v : View) (limits : Limits) : BodyM Unit := do
  BodyM.havoc f.result.1
  BodyM.assume? (← whereClause f.result.2 (.var f.result.1) Prelude.heapVar)
  f.ensures.forM fun s => BodyM.defineAndAssume v limits s.expr
  BodyM.assume .ff

/-- Checks a body and that it establishes the postcondition. -/
def checkBody (f : Function) (v : View) (limits : Limits) (body : Source.Expr) : BodyM Unit := do
  BodyM.add (← definedness v limits body)
  let value ← lowerExpr v body
  BodyM.assign f.result.1 (Boxing.convert body.typ f.result.2 value)
  let b : Body := { refinement := f.refinement }
  (f.ensures.filter fun s => !s.free).forM fun s =>
    b.assertGoal v s.expr s.inherited "possible violation of function postcondition"

/-- The body of the procedure that checks a function. -/
def checkAll (f : Function) (v : View) : BodyM Unit := do
  let measure := Measure.ofMember f.decreases f.span f.params
  let entry : Termination.Entry :=
    { current := f.name
      olds := ← Termination.values v measure
      inferred := measure.inferred
      wildcard := measure.wildcard }
  let contract : Limits := { termination := some entry }
  let contractExprs := f.requiresExprs ++ f.reads ++ (f.decreases.map (·.exprs)).getD []
  contractExprs.forM (BodyM.defineAndAssume v contract)
  DeclM.declareLocal f.result.1 f.result.2.sort
  let post ← BodyM.block (f.checkPost v contract)
  let reads := if (← DeclM.context).options.checkReads then some f.reads else none
  let body ← BodyM.block (f.body.forM (f.checkBody v { contract with reads }))
  BodyM.add [.ifElse none post body]

/-- Emits the procedure that checks a function, with its implementation. -/
def emitCheck (f : Function) : DeclM Unit := do
  let name := Naming.proc f.name .checkWellformed
  let params := f.thisBinder ++ sortBinders f.params
  let hyps ← f.formalHyps Prelude.heapVar
  DeclM.emit (.procedure
    { name, params, outs := [], requires := hyps.map .assumed, modifies := [], ensures := [] })
  let ((), body) ← (f.checkAll (f.factView Prelude.heapVar .default)).run
  let locals ← DeclM.takeLocals
  DeclM.emit (.implementation { name, params, outs := [], locals, body })

/-- Emits the definitions of a function that shows its body. -/
def emitDefinitions (f : Function) (recursive : Bool) (body : Source.Expr) : DeclM Unit := do
  DeclM.emitFact (← f.definition body .normal)
  if recursive then
    DeclM.emitFact (← f.definition body .unrolled)
    match f.matchedParam? body with
    | none => return ()
    | some (n, dt, arms) => arms.forM fun (p, e) => do
      DeclM.emitFact (← f.caseDefinition n dt p e)

/-- Lowers a function. -/
def lower (f : Function) : DeclM Unit :=
  DeclM.within f.span f.name.module (some f.name) do
    let recursive ← ExprM.isRecursive f.name
    (f.layers recursive).forM fun (layer, result) =>
      DeclM.emit (.func (Naming.layered f.name layer) f.sorts result)
    if recursive then f.layerFacts.forM DeclM.emitFact
    (← f.postFact?).forM DeclM.emitFact
    if !f.reads.isEmpty then DeclM.emitFact (← f.frameFact)
    if !f.isHidden then f.body.forM (f.emitDefinitions recursive)
    f.emitCheck

end Source.Function

end ContractLowering
