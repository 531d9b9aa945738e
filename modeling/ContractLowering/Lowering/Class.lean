import ContractLowering.Lowering.Function
import ContractLowering.Lowering.Method

/-!
# Lowering classes

A class becomes a constant, its fields with facts about their values, and its members.
-/

namespace ContractLowering

open IL Source

namespace Source.Class

/-- That a field of an allocated object of the class holds a value of the field's type, if the
type says anything. -/
def fieldFact? (c : Class) (f : Field) : ExprM (Option IL.Expr) := do
  let h ← Heap.fieldHandle f
  let heap := IL.Expr.var Naming.heapParam
  let value := Heap.readField heap Heap.obj h
  match ← whereClause f.typ value heap with
  | none => return none
  | some clause =>
    let typed ← Heap.dtypeIs Heap.obj c.path
    let hyps := IL.Expr.conj [Prelude.isGoodHeap heap, Heap.nonNullAlloc heap Heap.obj, typed]
    -- an immutable field is read without the heap, which the trigger has to mention
    let trigger := if h.isMutable then [value] else [value, Heap.isAlloc heap Heap.obj]
    return some (.all [(Naming.heapParam, Prelude.heapSort), (Naming.objVar, Prelude.refSort)]
      [trigger] (.imp hyps clause))

/-- Lowers the class itself, without its members. -/
def lowerHead (c : Class) : DeclM Unit :=
  DeclM.within c.span c.path.module none do
    let _ ← Heap.classConst c.path
    c.fields.forM fun f => do
      (← c.fieldFact? f).forM DeclM.emitFact

/-- Lowers a class and its members. -/
def lower (c : Class) : DeclM Unit := do
  c.lowerHead
  c.functions.forM Function.lower
  c.methods.forM Method.lower

end Source.Class

end ContractLowering
