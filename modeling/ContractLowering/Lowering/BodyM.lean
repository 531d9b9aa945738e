import ContractLowering.Lowering.Definedness
import ContractLowering.Lowering.Split
import ContractLowering.Refinement

/-!
# Computations that write bodies

Lowering a statement appends statements to the body that is being built. The heap is a global
variable, and every body keeps the set of objects it may modify in a local, its frame. This
module holds the steps that bodies are made of: checking and asserting expressions, storing
values in fresh locals, and replacing the heap.
-/

namespace ContractLowering

open IL Source

/-- Computations that append statements to a body. -/
structure BodyM (α : Type) where
  /-- Runs a computation for its result and statements. -/
  run : DeclM (α × List IL.Stmt)

namespace BodyM

/-- A computation after another, with their statements in this order. -/
def seq {α β : Type} (x : BodyM α) (f : α → BodyM β) : BodyM β :=
  ⟨DeclM.seq x.run fun (a, before) =>
    DeclM.seq (f a).run fun (b, after) => pure (b, before ++ after)⟩

instance : Monad BodyM where
  pure a := ⟨pure (a, [])⟩
  bind := seq

/-- A computation that appends nothing. -/
def ofDecl {α : Type} (x : DeclM α) : BodyM α := ⟨DeclM.seq x fun a => pure (a, [])⟩

instance : MonadLift DeclM BodyM := ⟨ofDecl⟩

/-- Appends statements. -/
def add (ss : List IL.Stmt) : BodyM Unit := ⟨pure ((), ss)⟩

/-- The result of a computation and its statements, which are not appended. -/
def inside {α : Type} (x : BodyM α) : BodyM (α × List IL.Stmt) := ofDecl x.run

/-- The statements of a computation, which are not appended. -/
def block (x : BodyM Unit) : BodyM (List IL.Stmt) := do return (← inside x).2

def assume (e : IL.Expr) : BodyM Unit := add [.assume e]
def assert (msg : Message) (e : IL.Expr) : BodyM Unit := add [.assert msg e]
def havoc (x : String) : BodyM Unit := add [.havoc x]
def assign (x : String) (e : IL.Expr) : BodyM Unit := add [.assign x e]

/-- Assumes a clause if there is one. -/
def assume? : Option IL.Expr → BodyM Unit
  | none => return ()
  | some e => assume e

/-- Stores a value in a local. -/
def storeIn (x : String) (s : Srt) (value : IL.Expr) : BodyM IL.Expr := do
  DeclM.declareLocal x s
  assign x value
  return .var x

/-- Stores a value in a fresh local. -/
def temp (s : Srt) (value : IL.Expr) : BodyM IL.Expr := do
  storeIn (Naming.temp (← DeclM.freshId)) s value

/-- Checks that an expression is defined. -/
def define (v : View) (e : Source.Expr) : BodyM Unit := do add (← definedness v {} e)

/-- The value of an expression that is checked to be defined. -/
def value (v : View) (e : Source.Expr) : BodyM IL.Expr := do
  define v e
  lowerExpr v e

/-- Checks that an expression is defined and, if it is a condition, assumes it. -/
def defineAndAssume (v : View) (limits : Limits) (e : Source.Expr) : BodyM Unit := do
  add (← definedness v limits e)
  match e.typ with
  | .bool => assume (← lowerExpr v e)
  | _ => return ()

/-- Asserts that an object is there, unless it is the receiver. -/
def assertNonNull (obj : Source.Expr) (o : IL.Expr) : BodyM Unit :=
  if obj.isThis then return () else assert (nullMessage obj.span) (.ne o Prelude.null)

/-- Asserts that an integer is a natural number where one is expected. -/
def assertNat (e : Source.Expr) (target : Typ) (x : IL.Expr) : BodyM Unit :=
  if needsNatCheck e.typ target then assert (natMessage e.span) (.le (.nat 0) x) else return ()

/-- Assumes that the heap is well formed, after it was updated. -/
def assumeGoodHeap : BodyM Unit := assume (Prelude.isGoodHeap Prelude.heapVar)

/-- Writes a boxed value into the heap. -/
def updateHeap (o f boxed : IL.Expr) : BodyM Unit := do
  assign Prelude.heapName (Prelude.update Prelude.heapVar o f boxed)
  assumeGoodHeap

/-- Replaces the heap by an arbitrary later one and gives the heap before. -/
def havocHeap : BodyM IL.Expr := do
  let prev ← storeIn (Naming.prevHeap (← DeclM.freshId)) Prelude.heapSort Prelude.heapVar
  havoc Prelude.heapName
  assume (.conj [Prelude.isGoodHeap Prelude.heapVar, Prelude.heapSucc prev Prelude.heapVar])
  return prev

/-- Stores the components of a measure in locals, of which `name` gives the names. -/
def snapshot (name : Nat → String) (vs : List MeasureValue) : BodyM (List MeasureValue) :=
  vs.zipIdx.mapM fun (m, i) => do
    let x ← storeIn (name i) m.typ.sort m.expr
    return { m with expr := x }

end BodyM

/-! ## Frames of bodies -/

/-- That the current code may modify an object. -/
def inFrame (v : View) (o : IL.Expr) : IL.Expr :=
  match v.frame with
  | none => .tt
  | some f => Prelude.setMem (.var f) (Boxing.boxRef o)

/-- That the current code may modify every allocated object for which something holds, which is
said of `Heap.obj`. -/
def frameIncludes (v : View) (contained : IL.Expr) : IL.Expr :=
  .all [(Naming.objVar, Prelude.refSort)] []
    (.imp (.conj [Heap.nonNullAlloc v.heap Heap.obj, contained]) (inFrame v Heap.obj))

/-! ## Bodies -/

/-- What the lowering of a body knows of the member it belongs to: how the member relates to the
one it refines, its measure on entry, its out- or yield-parameters, and the iterator whose body it
is. -/
structure Body where
  refinement : Refinement := {}
  termination : Option Termination.Entry := none
  outs : List Source.Binder := []
  iterator : Option Iterator := none
deriving Inhabited

namespace Body

/-- Asserts an expression part by part. Parts that are inherited and need no second look are
assumed, and what follows from the whole is assumed after all parts. -/
def assertGoal (b : Body) (v : View) (e : Source.Expr) (inherited : Bool) (note : String) :
    BodyM Unit := do
  let reverify := (← DeclM.context).options.reverifyRefined
  let parts ← split v e true
  let checked := (parts.filter (·.kind.isChecked)).map fun p =>
    if b.refinement.keepsCheck reverify inherited p.span then
      let msg := Message.error note p.span
      IL.Stmt.assert
        (if p.span.id = e.span.id then msg else msg.withLabel e.span "related location") p.expr
    else .assume p.expr
  let free := (parts.filter fun p => !p.kind.isChecked).map fun p => IL.Stmt.assume p.expr
  BodyM.add (checked ++ free)

/-- Checks contract clauses where they are established: each is defined, and holds. -/
def establish (b : Body) (v : View) (note : String) (specs : List Spec) : BodyM Unit :=
  specs.forM fun s => do
    BodyM.define v s.expr
    if s.free then BodyM.assume (← lowerExpr v s.expr)
    else b.assertGoal v s.expr s.inherited note

/-- Assigns values to the out- or yield-parameters, all values before all assignments. -/
def assignOuts (b : Body) (v : View) (es : List Source.Expr) : BodyM Unit := do
  let values ← (es.zip b.outs).mapM fun (e, out) => do
    let x ← BodyM.value v e
    let x := Boxing.convert e.typ out.2 x
    BodyM.assertNat e out.2 x
    BodyM.temp out.2.sort x
  (b.outs.zip values).forM fun (out, x) => BodyM.assign out.1 x

end Body

end ContractLowering
