import ContractLowering.Lowering.BodyM

/-!
# Assignments

The parts of an assignment are evaluated in this order: the targets, into temporaries; the
values; then, if there are several targets, the check that no two of them write different values
to one location; and last the stores.
-/

namespace ContractLowering

open IL Source

/-- An assignment target whose parts are evaluated. `heap` is a field of an object, `range` the
elements of an array from `lo` up to `hi`. -/
inductive Target where
  | var (x : String) (typ : Typ)
  | heap (obj field : IL.Expr) (typ : Typ)
  | range (array lo hi : IL.Expr) (typ : Typ)
deriving Inhabited

namespace Target

/-- The type of the values a target holds. -/
def typ : Target → Typ
  | .var _ t | .heap _ _ t | .range _ _ _ t => t

/-- Whether a target is a range. -/
def isRange : Target → Bool
  | .range .. => true
  | _ => false

/-- Whether two targets are the same variable. -/
def isSameVar : Target → Target → Bool
  | .var x _, .var y _ => x == y
  | _, _ => false

/-- That a location is an element of a range. -/
def rangeSelects (a lo hi obj field : IL.Expr) : IL.Expr :=
  let i := Prelude.indexFieldInv field
  .conj [.eq obj a, .eq (Prelude.fieldDim field) (.nat 1), .le lo i, .lt i hi]

/-- That two targets write a common location, if they ever do. -/
def overlap? : Target → Target → Option IL.Expr
  | .heap o f _, .heap o' f' _ => some (.conj [.eq o o', .eq f f'])
  | .heap o f _, .range a lo hi _ | .range a lo hi _, .heap o f _ =>
    some (rangeSelects a lo hi o f)
  | .range a lo hi _, .range a' lo' hi' _ => some (.conj [.eq a a', .lt lo hi', .lt lo' hi])
  | .var .., _ | _, .var .. => none

/-- Stores a value of the target's type. The elements of a range all receive it, and nothing else
in the heap changes. -/
def store (value : IL.Expr) : Target → BodyM Unit
  | .var x _ => BodyM.assign x value
  | .heap o f t => BodyM.updateHeap o f (Boxing.box t value)
  | .range a lo hi t => do
    let prev ← BodyM.havocHeap
    let newRead := Prelude.read Prelude.heapVar Heap.obj Heap.fld
    let expected := IL.Expr.cond (rangeSelects a lo hi Heap.obj Heap.fld) (Boxing.box t value)
      (Prelude.read prev Heap.obj Heap.fld)
    BodyM.assume (.all Heap.locationBinders [[newRead]] (.eq newRead expected))

end Target

/-- The message of an assignment outside the frame. -/
def modifiesMessage (span : Span) : Message :=
  .error "assignment may update an object not in the enclosing context's modifies clause" span

/-- The element type of an array that is assigned to. -/
def arrayElem (arr : Source.Expr) : ExprM Typ :=
  match arr.typ with
  | .array t => return t
  | t => ExprM.broken (.arrayAssignmentTo t)

/-- Evaluates the parts of a target and checks that it may be assigned to. -/
def Target.ofLhs (v : View) : Lhs → BodyM Target
  | .var _ x t => return .var x t
  | .field span obj fid => do
    let f ← ExprM.field fid
    if !f.isMutable then DeclM.reject (.error "cannot assign to an immutable field" span)
    let o ← BodyM.temp Prelude.refSort (← BodyM.value v obj)
    BodyM.assertNonNull obj o
    BodyM.assert (modifiesMessage span) (inFrame v o)
    let h ← Heap.fieldHandle f
    return .heap o (.var h.name) f.typ
  | .index span arr idx => do
    let elem ← arrayElem arr
    BodyM.define v arr
    BodyM.define v idx
    let a ← BodyM.temp Prelude.refSort (← lowerExpr v arr)
    let i ← BodyM.temp .int (← lowerExpr v idx)
    BodyM.assertNonNull arr a
    BodyM.assert (indexMessage idx.span) (inRange i (← Heap.arrayLength a))
    BodyM.assert (modifiesMessage span) (inFrame v a)
    return .heap a (Prelude.indexField i) elem
  | .range span arr lo hi => do
    let elem ← arrayElem arr
    BodyM.define v arr
    BodyM.define v lo
    BodyM.define v hi
    let a ← BodyM.temp Prelude.refSort (← lowerExpr v arr)
    let l ← BodyM.temp .int (← lowerExpr v lo)
    let h ← BodyM.temp .int (← lowerExpr v hi)
    BodyM.assertNonNull arr a
    let length ← Heap.arrayLength a
    BodyM.assert (.error "range bounds might be out of order or out of range" span)
      (.conj [.le (.nat 0) l, .le l h, .le h length])
    BodyM.assert (modifiesMessage span) (inFrame v a)
    return .range a l h elem

/-- Allocates an object of a class: one that was not allocated before, and is now. -/
def allocate (p : Path) : BodyM IL.Expr := do
  let x := Naming.newObject (← DeclM.freshId)
  DeclM.declareLocal x Prelude.refSort
  let o := IL.Expr.var x
  BodyM.havoc x
  let typed ← Heap.dtypeIs o p
  BodyM.assume (.conj [.ne o Prelude.null, (Heap.isAlloc Prelude.heapVar o).neg, typed])
  BodyM.updateHeap o Prelude.alloc (Boxing.boxBool .tt)
  return o

/-- Assumes that the fields of a new object hold values of their types. -/
def assumeFields (o : IL.Expr) (fields : List Field) : BodyM Unit :=
  (fields.filter (·.isMutable)).forM fun f => do
    let h ← Heap.fieldHandle f
    let clause ← whereClause f.typ (Heap.readField Prelude.heapVar o h) Prelude.heapVar
    BodyM.assume? clause

/-- Assumes that the elements of a new array hold values of their type. -/
def assumeElements (a n : IL.Expr) (elem : Typ) : BodyM Unit := do
  let i := IL.Expr.var Naming.indexVar
  let read := Heap.readArray Prelude.heapVar a i
  let clause ← whereClause elem (Boxing.unbox elem read) Prelude.heapVar
  BodyM.assume? (clause.map fun w => .all [(Naming.indexVar, .int)] [[read]] (.imp (inRange i n) w))

/-- Evaluates the right-hand side of an assignment as a value of a type. -/
def evalRhs (v : View) (target : Typ) : Rhs → BodyM IL.Expr
  | .expr e => do
    let x := Boxing.convert e.typ target (← BodyM.value v e)
    BodyM.assertNat e target x
    return x
  | .havoc t => do
    let x := Naming.temp (← DeclM.freshId)
    DeclM.declareLocal x t.sort
    BodyM.havoc x
    BodyM.assume? (← whereClause t (.var x) Prelude.heapVar)
    return Boxing.convert t target (.var x)
  | .new path _ => do
    let o ← allocate path
    let c ← ExprM.ofExcept ((← DeclM.context).cls path)
    assumeFields o c.fields
    return o
  | .newArray elem length => do
    let n ← BodyM.temp .int (← BodyM.value v length)
    BodyM.assert (.error "array size might be negative" length.span) (.le (.nat 0) n)
    let a ← allocate Heap.arrayClass
    BodyM.assume (.eq (← Heap.arrayLength a) n)
    assumeElements a n elem
    return a

/-- The pairs of different positions of a list, earlier before later. -/
def orderedPairs {α : Type} : List α → List (α × α)
  | [] => []
  | a :: as => as.map (a, ·) ++ orderedPairs as

/-- A target with its place and the value it is to hold. -/
structure Store where
  span : Span
  target : Target
  value : IL.Expr
deriving Inhabited

/-- Asserts that two targets that write one location write the same value to it. -/
def assertDistinct (s t : Store) : BodyM Unit :=
  match s.target.overlap? t.target with
  | none => return ()
  | some overlap => BodyM.assert (.error "left-hand sides might refer to the same location" t.span)
    (.disj [overlap.neg, .eq (Boxing.box s.target.typ s.value) (Boxing.box t.target.typ t.value)])

/-- Lowers an assignment. -/
def lowerAssign (v : View) (span : Span) (lhss : List Lhs) (rhss : List Rhs) : BodyM Unit := do
  let targets ← lhss.mapM (Target.ofLhs v)
  if (orderedPairs targets).any fun p => p.1.isSameVar p.2 then
    DeclM.reject (.error "a variable occurs twice on the left-hand side" span)
  let several := targets.length > 1
  let stores ← ((lhss.zip targets).zip rhss).mapM fun ((lhs, target), rhs) => do
    let x ← evalRhs v target.typ rhs
    let x ← if several || target.isRange then BodyM.temp target.typ.sort x else pure x
    return (⟨lhs.span, target, x⟩ : Store)
  (orderedPairs stores).forM fun (s, t) => assertDistinct s t
  stores.forM fun s => s.target.store s.value

end ContractLowering
