import ContractLowering.IL.Program
import ContractLowering.Lowering.Boxing
import ContractLowering.Lowering.ExprM

/-!
# The heap model

A heap maps an object and a field to a boxed value. Mutable fields are constants of sort `Field`,
immutable ones functions of their object, and array elements use `IndexField`. Class constants,
fields and the fact about array lengths are declared when code first refers to them: the
functions here ask for the declaration, `Request.decls` says what it is.
-/

namespace ContractLowering

open IL Source

namespace Heap

/-- The built-in class of all arrays. -/
def arrayClass : Path := ⟨"_System", ["array"]⟩

/-- The constant of a class. -/
def classConst (p : Path) : ExprM String := do
  ExprM.request (.cls p)
  return Naming.cls p

/-- The handle of a field: the one it was declared with, or a new one. -/
def fieldHandle (f : Field) : ExprM FieldHandle := do
  ExprM.request (.field f)
  return ((← ExprM.env).handles.find? (·.id = f.id)).getD (.ofField f)

/-- The value of a field of an object in a heap, in the native sort of the field's type. -/
def readField (heap obj : IL.Expr) (h : FieldHandle) : IL.Expr :=
  if h.isMutable then Boxing.unbox h.typ (Prelude.read heap obj (.var h.name))
  else .app h.name [obj]

/-- The boxed element of an array in a heap. -/
def readArray (heap arr i : IL.Expr) : IL.Expr := Prelude.read heap arr (Prelude.indexField i)

/-- The length of an array. -/
def arrayLength (arr : IL.Expr) : ExprM IL.Expr := do
  ExprM.request .arrayLength
  return Prelude.arrayLength arr

/-- That an object is allocated in a heap. -/
def isAlloc (heap obj : IL.Expr) : IL.Expr :=
  Boxing.unboxBool (Prelude.read heap obj Prelude.alloc)

/-- That an object has a class. -/
def dtypeIs (obj : IL.Expr) (p : Path) : ExprM IL.Expr := do
  let c ← classConst p
  return .eq (Prelude.dtype obj) (.var c)

/-- That an object is there and allocated. -/
def nonNullAlloc (heap obj : IL.Expr) : IL.Expr :=
  .conj [.ne obj Prelude.null, isAlloc heap obj]

/-- That an object is there and was not allocated in the old heap. -/
def isFresh (oldHeap obj : IL.Expr) : IL.Expr :=
  .conj [.ne obj Prelude.null, (isAlloc oldHeap obj).neg]

/-- That a receiver is there, allocated and of its class. -/
def receiverWhere (p : Path) (this heap : IL.Expr) : ExprM IL.Expr := do
  let typed ← dtypeIs this p
  return .conj [nonNullAlloc heap this, typed]

/-- The variable over objects in frame conditions. -/
def obj : IL.Expr := .var Naming.objVar

/-- The variable over fields in frame conditions. -/
def fld : IL.Expr := .var Naming.fieldVar

/-- The binders of a quantification over all locations. -/
def locationBinders : List IL.Binder :=
  [(Naming.objVar, Prelude.refSort), (Naming.fieldVar, Prelude.fieldSort)]

/-- That every location of an object allocated in the old heap is unchanged in the new one, unless
the object may change, which is said of `obj`. -/
def frameCondition (oldHeap newHeap mayChange : IL.Expr) : IL.Expr :=
  let newRead := Prelude.read newHeap obj fld
  let unchanged := IL.Expr.eq newRead (Prelude.read oldHeap obj fld)
  .all locationBinders [[newRead]]
    (.imp (nonNullAlloc oldHeap obj) (.disj [unchanged, mayChange]))

end Heap

/-- The declaration of a class constant. -/
def Request.classDecl (p : Path) : IL.Decl := .uniqueConst (Naming.cls p) Prelude.classNameSort

/-- The declarations of a field, without its class. -/
def Request.fieldDecls (f : Field) : List IL.Decl :=
  let name := Naming.field f.id
  if f.isMutable then
    [.uniqueConst name Prelude.fieldSort,
     .fact none (.eq (Prelude.fieldDim (.var name)) (.nat 0)),
     .fact none (.eq (Prelude.declType (.var name)) (.var (Naming.cls f.id.owner)))]
  else [.func name [Prelude.refSort] f.typ.sort]

/-- The fact that array lengths are not negative. -/
def Request.arrayLengthDecl : IL.Decl :=
  let length := Prelude.arrayLength (.var "$a")
  .fact none (.all [("$a", Prelude.refSort)] [[length]] (.le (.nat 0) length))

end ContractLowering
