import ContractLowering.Lowering.DeclM
import ContractLowering.Lowering.WhereClause

/-!
# Lowering datatypes

A constructor becomes a function with an identifier, a test and destructors. All datatypes share
one sort, so that the constructors exhaust a datatype is said by where clauses and not by a fact
about the sort.
-/

namespace ContractLowering

open IL Source

/-- The bound variable over datatype values. -/
def datatypeVar : String := "$d"

/-- The binders of a quantification over datatype values. -/
def datatypeBinders : List IL.Binder := [(datatypeVar, Prelude.datatypeSort)]

namespace Source.Ctor

/-- Variables for the fields of a constructor. -/
def fieldVars (c : Ctor) : List Source.Binder := c.fields.map fun f => (f.1 ++ "%a", f.2)

/-- The constructor applied to its variables. -/
def applied (c : Ctor) (dt : Path) : IL.Expr :=
  .app (Naming.ctor dt c.name) (c.fieldVars.map fun x => .var x.1)

/-- The test of a constructor. -/
def test (c : Ctor) (dt : Path) (d : IL.Expr) : IL.Expr := .app (Naming.isCtor dt c.name) [d]

/-- That a value has the identifier of a constructor. -/
def hasId (c : Ctor) (dt : Path) (d : IL.Expr) : IL.Expr :=
  .eq (Prelude.datatypeCtorId d) (.var (Naming.ctorId dt c.name))

/-- The declarations of a constructor. -/
def decls (c : Ctor) (dt : Path) : List IL.Decl :=
  let sort := Prelude.datatypeSort
  [.func (Naming.ctor dt c.name) (c.fields.map (·.2.sort)) sort,
   .uniqueConst (Naming.ctorId dt c.name) Prelude.ctorIdSort,
   .func (Naming.isCtor dt c.name) [sort] .bool]
  ++ c.fields.map fun f => .func (Naming.destructor dt c.name f.1) [sort] f.2.sort

/-- That a constructed value has the constructor's identifier, that destructors give its fields
back, and that fields of datatypes have smaller ranks. -/
def structureFact (c : Ctor) (dt : Path) : IL.Expr :=
  let whole := c.applied dt
  let parts := c.fields.zip c.fieldVars
  let inverses := parts.map fun (f, x) =>
    IL.Expr.eq (.app (Naming.destructor dt c.name f.1) [whole]) (.var x.1)
  let ranks := parts.filterMap fun (f, x) => match f.2 with
    | .datatype .. => some (IL.Expr.lt (Prelude.dtRank (.var x.1)) (Prelude.dtRank whole))
    | _ => none
  .all (sortBinders c.fieldVars) [[whole]] (.conj (c.hasId dt whole :: (inverses ++ ranks)))

/-- That the test holds of the values with the constructor's identifier. -/
def testFact (c : Ctor) (dt : Path) : IL.Expr :=
  let d := IL.Expr.var datatypeVar
  .all datatypeBinders [[c.test dt d]] (.eq (c.test dt d) (c.hasId dt d))

/-- That values of which the test holds are built by the constructor. -/
def builtFact (c : Ctor) (dt : Path) : IL.Expr :=
  let d := IL.Expr.var datatypeVar
  let built := IL.Expr.ex (sortBinders c.fieldVars) [] (.eq d (c.applied dt))
  .all datatypeBinders [[c.test dt d]] (.imp (c.test dt d) built)

/-- That a constructed value is allocated if its fields are. -/
def allocFact (c : Ctor) (dt : Path) : ExprM IL.Expr := do
  let heap := IL.Expr.var Naming.heapParam
  let alloc := Prelude.isAllocDt (c.applied dt) heap
  let wheres ← whereClauses heap c.fieldVars
  return .all (sortBinders c.fieldVars ++ [(Naming.heapParam, Prelude.heapSort)]) [[alloc]]
    (.imp (Prelude.isGoodHeap heap) (.eq alloc (.conj wheres)))

/-- Emits the facts about a constructor. -/
def emitFacts (c : Ctor) (dt : Path) : DeclM Unit := do
  DeclM.emitFact (c.structureFact dt)
  DeclM.emitFact (c.testFact dt)
  DeclM.emitFact (c.builtFact dt)
  DeclM.emitFact (← c.allocFact dt)

end Source.Ctor

namespace Source.Datatype

/-- That a value satisfies a test exactly if it has an identifier of the datatype. -/
def testsFact (d : Datatype) : IL.Expr :=
  let x := IL.Expr.var datatypeVar
  .all datatypeBinders [[Prelude.datatypeCtorId x]]
    (.eq (.disj (d.ctors.map (·.test d.path x))) (.disj (d.ctors.map (·.hasId d.path x))))

/-- Lowers a datatype. -/
def lower (d : Datatype) : DeclM Unit :=
  DeclM.within d.span d.path.module none do
    d.ctors.forM fun c => (c.decls d.path).forM DeclM.emit
    d.ctors.forM fun c => c.emitFacts d.path
    if d.ctors.length > 1 then DeclM.emitFact d.testsFact

end Source.Datatype

end ContractLowering
