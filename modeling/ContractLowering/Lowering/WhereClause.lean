import ContractLowering.Lowering.Heap

/-!
# Where clauses

The where clause of a value says what its sort does not: that it really is a value of its source
type and that what it refers to is allocated. `none` stands for a clause that says nothing.
Elements of collections are bound by variables that carry the depth of nesting, so clauses inside
clauses never clash.
-/

namespace ContractLowering

open IL Source

namespace WhereClause

/-- The variable for a box at a depth of nesting. -/
def boxVar (depth : Nat) : String := Naming.boxVar ++ "%" ++ toString depth

/-- The variable for an index at a depth of nesting. -/
def indexVar (depth : Nat) : String := Naming.indexVar ++ "%" ++ toString depth

/-- That a reference is null or satisfies what is said of allocated ones. -/
def orNull (v : IL.Expr) (allocated : IL.Expr) : IL.Expr :=
  .disj [.eq v Prelude.null, allocated]

/-- That no two of the tests hold together, in the order of pairs. -/
def pairwiseExclusive : List IL.Expr → List IL.Expr
  | [] => []
  | t :: ts => ts.map (fun u => IL.Expr.neg (.conj [t, u])) ++ pairwiseExclusive ts

/-- The conjunction of the clauses that say something. -/
def both : Option IL.Expr → Option IL.Expr → Option IL.Expr
  | none, none => none
  | a, b => some (.conj (a.toList ++ b.toList))

/-- The clause of a datatype value: it is allocated and built by one of the constructors. -/
def ofDatatype (extended : Bool) (path : Path) (v heap : IL.Expr) : ExprM IL.Expr := do
  let d ← ExprM.datatype path
  let tests := d.ctors.map fun c => IL.Expr.app (Naming.isCtor path c.name) [v]
  return .conj ([Prelude.isAllocDt v heap, .disj tests]
    ++ if extended then pairwiseExclusive tests else [])

/-- The where clause of a value of a type in a heap. The extended form marks sets and multisets as
good ones and says that constructors exclude each other. -/
def clause (extended : Bool) (heap : IL.Expr) (depth : Nat) :
    Typ → IL.Expr → ExprM (Option IL.Expr)
  | .bool, _ | .int, _ | .param _, _ => return none
  | .nat, v => return some (.le (.nat 0) v)
  | .cls path _, v => do
    let typed ← Heap.dtypeIs v path
    return some (orNull v (.conj [Heap.isAlloc heap v, typed]))
  | .array _, v => do
    let typed ← Heap.dtypeIs v Heap.arrayClass
    return some (orNull v (.conj [Heap.isAlloc heap v, typed]))
  | .object, v => return some (orNull v (Heap.isAlloc heap v))
  | .datatype path _, v => return some (← ofDatatype extended path v heap)
  | .set elem, v => do
    let b := boxVar depth
    let inner ← clause extended heap (depth + 1) elem (Boxing.unbox elem (.var b))
    let mem := Prelude.setMem v (.var b)
    let elements := inner.map fun w =>
      IL.Expr.all [(b, Prelude.boxSort)] [[mem]] (.imp mem w)
    return both (if extended then some (Prelude.isGoodSet v) else none) elements
  | .multiset elem, v => do
    let b := boxVar depth
    let inner ← clause extended heap (depth + 1) elem (Boxing.unbox elem (.var b))
    let mem := Prelude.multiplicity v (.var b)
    let elements := inner.map fun w =>
      IL.Expr.all [(b, Prelude.boxSort)] [[mem]] (.imp (.lt (.nat 0) mem) w)
    return both (if extended then some (Prelude.isGoodMultiset v) else none) elements
  | .seq elem, v => do
    let i := indexVar depth
    let index := Prelude.seqIndex v (.var i)
    let inner ← clause extended heap (depth + 1) elem (Boxing.unbox elem index)
    let inRange := IL.Expr.conj [.le (.nat 0) (.var i), .lt (.var i) (Prelude.seqLength v)]
    return inner.map fun w => .all [(i, .int)] [[index]] (.imp inRange w)
  | .map key value, v => do
    let b := boxVar depth
    let ofKey ← clause extended heap (depth + 1) key (Boxing.unbox key (.var b))
    let mapped := Boxing.unbox value (Prelude.mapElements v (.var b))
    let ofValue ← clause extended heap (depth + 1) value mapped
    let mem := Prelude.setMem (Prelude.mapDomain v) (.var b)
    return (both ofKey ofValue).map fun w =>
      .all [(b, Prelude.boxSort)] [[mem]] (.imp mem w)

end WhereClause

/-- The where clause of a value of a type in a heap, if it says anything. -/
def whereClause (t : Typ) (v heap : IL.Expr) : ExprM (Option IL.Expr) :=
  WhereClause.clause false heap 0 t v

/-- The stronger where clause that in-parameters of methods satisfy. -/
def whereClauseExtended (t : Typ) (v heap : IL.Expr) : ExprM (Option IL.Expr) :=
  WhereClause.clause true heap 0 t v

/-- The where clauses of variables that say anything, in order. -/
def whereClauses (heap : IL.Expr) (bs : List Source.Binder) : ExprM (List IL.Expr) := do
  let clauses ← bs.mapM fun b => whereClause b.2 (.var b.1) heap
  return clauses.filterMap id

/-- The conjunction of the where clauses of variables. -/
def bindersWhere (heap : IL.Expr) (bs : List Source.Binder) : ExprM IL.Expr := do
  return .conj (← whereClauses heap bs)

end ContractLowering
