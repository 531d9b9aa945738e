import ContractLowering.Lowering.Triggers
import ContractLowering.Lowering.View
import ContractLowering.Lowering.WhereClause

/-!
# Lowering expressions

`lowerExpr` gives the value of a source expression as an expression of the sort of its type. It
does not say whether the expression is defined. Operators are chosen by the types of their
operands, matches become cascades of tests whose last arm needs none, and comprehensions become
predicates over boxes.
-/

namespace ContractLowering

open IL Source

/-- An integer constant. Numerals are unsigned, so a negative one is a difference from zero. -/
def intConst (n : Int) : IL.Expr :=
  if n < 0 then .sub (.nat 0) (.nat n.natAbs) else .nat n.natAbs

/-- The element type of a collection, the key type of a map. -/
def elemTyp : Typ → ExprM Typ
  | .set t | .multiset t | .seq t | .array t => return t
  | .map k _ => return k
  | t => ExprM.broken (.notACollection t)

/-- The key and value types of a map, or what is broken. -/
def mapTyps (t : Typ) (otherwise : Broken) : ExprM (Typ × Typ) :=
  match t with
  | .map k v => return (k, v)
  | _ => ExprM.broken otherwise

/-- The datatype of a matched value. -/
def matchedDatatype : Typ → ExprM Path
  | .datatype path _ => return path
  | t => ExprM.broken (.matchOn t)

/-- The variant of a function that a call from the current code refers to. -/
def callLayer (v : View) (callee : Path) : ExprM Layer := do
  if !(← ExprM.isRecursive callee) then return .normal
  let inRecursion ← match (← ExprM.env).member with
    | some f => ExprM.inSameComponent f callee
    | none => pure false
  match v.layer with
  | .limited => return .limited
  | .unrolled => return .normal
  | .default => return if inRecursion then .limited else .normal

/-- A lambda over boxes. -/
def boxLambda (body : IL.Expr) : IL.Expr := .lambda [(Naming.boxVar, Prelude.boxSort)] body

/-- Binds the variable of a comprehension to the content of the lambda's box. -/
def letUnboxed (b : Source.Binder) (body : IL.Expr) : IL.Expr :=
  .lets [(b.1, Boxing.unbox b.2 (.var Naming.boxVar))] body

/-- A part of a sequence. -/
def seqSlice (s : IL.Expr) : Option IL.Expr → Option IL.Expr → IL.Expr
  | none, none => s
  | some lo, none => Prelude.seqDrop s lo
  | none, some hi => Prelude.seqTake s hi
  | some lo, some hi => Prelude.seqTake (Prelude.seqDrop s lo) (.sub hi lo)

/-- That a sequence is a (proper) prefix of another. -/
def seqStarts (proper : Bool) (a b : IL.Expr) : IL.Expr :=
  let la := Prelude.seqLength a
  let lb := Prelude.seqLength b
  .conj [if proper then .lt la lb else .le la lb, Prelude.seqSameUntil a b la]

/-- That a collection is (properly) below another: subset, sub-multiset or prefix. -/
def collectionBelow (proper : Bool) (t : Typ) (a b : IL.Expr) : ExprM IL.Expr :=
  match t with
  | .set _ => return if proper then .conj [Prelude.setSubset a b, (Prelude.setEqual a b).neg]
      else Prelude.setSubset a b
  | .multiset _ =>
    return if proper then .conj [Prelude.multisetSubset a b, (Prelude.multisetEqual a b).neg]
      else Prelude.multisetSubset a b
  | .seq _ => return seqStarts proper a b
  | _ => ExprM.broken (.orderingOn t)

/-- Whether a type is ordered by inclusion or prefix. -/
def Source.Typ.isCollection : Typ → Bool
  | .set _ | .multiset _ | .seq _ => true
  | _ => false

/-- Equality of values of a type. -/
def typedEq (t : Typ) (a b : IL.Expr) : IL.Expr :=
  match t with
  | .set _ => Prelude.setEqual a b
  | .multiset _ => Prelude.multisetEqual a b
  | .seq _ => Prelude.seqEqual a b
  | .map .. => Prelude.mapEqual a b
  | _ => .eq a b

/-- Membership of a boxed value in a collection. -/
def lowerMem (t : Typ) (coll elem : IL.Expr) : ExprM IL.Expr :=
  match t with
  | .set _ => return Prelude.setMem coll elem
  | .multiset _ => return .lt (.nat 0) (Prelude.multiplicity coll elem)
  | .seq _ => return Prelude.seqContains coll elem
  | .map .. => return Prelude.setMem (Prelude.mapDomain coll) elem
  | _ => ExprM.broken (.membershipIn t)

/-- The operation that a sum, difference or product is at a type. -/
def lowerArith (op : MultiOp) (t : Typ) (a b : IL.Expr) : ExprM IL.Expr :=
  match t, op with
  | .set _, .add => return Prelude.setUnion a b
  | .set _, .sub => return Prelude.setDifference a b
  | .set _, _ => return Prelude.setIntersection a b
  | .multiset _, .add => return Prelude.multisetUnion a b
  | .multiset _, .sub => return Prelude.multisetDifference a b
  | .multiset _, _ => return Prelude.multisetIntersection a b
  | .seq _, .add => return Prelude.seqAppend a b
  | .seq _, _ => ExprM.broken .arithmeticOnSequences
  | _, _ => return .multi op [a, b]

/-- A comparison at a type. `swapped` says that the larger operand stands first. -/
def lowerCompare (op : IL.BinOp) (proper swapped : Bool) (t : Typ) (a b : IL.Expr) :
    ExprM IL.Expr :=
  if t.isCollection then
    if swapped then collectionBelow proper t b a else collectionBelow proper t a b
  else return .binary op a b

/-- The value of an operator, given the types and values of its operands. -/
def lowerBinary (op : Source.BinOp) (t₁ t₂ : Typ) (a b : IL.Expr) : ExprM IL.Expr :=
  match op with
  | .and => return .conj [a, b]
  | .or => return .disj [a, b]
  | .implies => return .imp a b
  | .iff => return .eq a b
  | .eq => return typedEq t₁ a (Boxing.convert t₂ t₁ b)
  | .ne => return (typedEq t₁ a (Boxing.convert t₂ t₁ b)).neg
  | .lt => lowerCompare .lt true false t₁ a b
  | .le => lowerCompare .le false false t₁ a b
  | .gt => lowerCompare .gt true true t₁ a b
  | .ge => lowerCompare .ge false true t₁ a b
  | .add => lowerArith .add t₁ a b
  | .sub => lowerArith .sub t₁ a b
  | .mul => lowerArith .mul t₁ a b
  | .div => return .binary .div a b
  | .mod => return .binary .mod a b
  | .mem => lowerMem t₂ b (Boxing.box t₁ a)
  | .notMem => return (← lowerMem t₂ b (Boxing.box t₁ a)).neg
  | .disjoint => match t₁ with
    | .multiset _ => return Prelude.multisetDisjoint a b
    | _ => return Prelude.setDisjoint a b

/-- The element of a collection at an index or key. -/
def lowerIndex (v : View) (coll idx result : Typ) (c i : IL.Expr) : ExprM IL.Expr :=
  match coll with
  | .seq elem => return Boxing.convert elem result (Boxing.unbox elem (Prelude.seqIndex c i))
  | .array elem =>
    return Boxing.convert elem result (Boxing.unbox elem (Heap.readArray v.heap c i))
  | .map key value =>
    let k := Boxing.box key (Boxing.convert idx key i)
    return Boxing.convert value result (Boxing.unbox value (Prelude.mapElements c k))
  | .multiset elem => return Prelude.multiplicity c (Boxing.box elem i)
  | _ => ExprM.broken (.indexingInto coll)

/-- A collection with one element replaced. -/
def lowerUpdate (coll value : Typ) (c i v : IL.Expr) : ExprM IL.Expr :=
  match coll with
  | .seq elem =>
    return Prelude.seqUpdate c i (Boxing.box elem (Boxing.convert value elem v))
  | .map key mapped =>
    return Prelude.mapBuild c (Boxing.box key i) (Boxing.box mapped (Boxing.convert value mapped v))
  | _ => ExprM.broken (.updateOf coll)

/-- The size of a collection. -/
def lowerCard (t : Typ) : ExprM (IL.Expr → IL.Expr) :=
  match t with
  | .set _ => return Prelude.setCard
  | .multiset _ => return Prelude.multisetCard
  | .seq _ => return Prelude.seqLength
  | .map .. => return Prelude.mapCard
  | _ => ExprM.broken (.cardinalityOf t)

/-- The empty collection of a kind and how an element is added. -/
def displayOps : Collection → IL.Expr × (IL.Expr → IL.Expr → IL.Expr)
  | .set => (Prelude.setEmpty, Prelude.setUnionOne)
  | .multiset => (Prelude.multisetEmpty, Prelude.multisetUnionOne)
  | .seq => (Prelude.seqEmpty, Prelude.seqBuild)

/-- That an object, or every object in a collection, is fresh. -/
def lowerFresh (v : View) (t : Typ) (e : IL.Expr) : IL.Expr :=
  let elements := fun (mem : IL.Expr) =>
    let o := Boxing.unboxRef (.var Naming.boxVar)
    IL.Expr.all [(Naming.boxVar, Prelude.boxSort)] [[mem]]
      (.imp (.conj [mem, .ne o Prelude.null]) (Heap.isFresh v.oldHeap o))
  match t with
  | .set _ => elements (Prelude.setMem e (.var Naming.boxVar))
  | .seq _ => elements (Prelude.seqContains e (.var Naming.boxVar))
  | .multiset _ => elements (.lt (.nat 0) (Prelude.multiplicity e (.var Naming.boxVar)))
  | _ => Heap.isFresh v.oldHeap e

/-- The triggers chosen for a quantifier, unless choosing is switched off. -/
def autoTriggers (bound : List String) (body : IL.Expr) : ExprM (List Trigger) := do
  return if (← ExprM.options).autoTriggers then Triggers.select bound body else []

/-- Universal quantification with chosen triggers. -/
def allAuto (binders : List IL.Binder) (body : IL.Expr) : ExprM IL.Expr := do
  return .all binders (← autoTriggers (binders.map (·.1)) body) body

/-- Existential quantification with chosen triggers. -/
def exAuto (binders : List IL.Binder) (body : IL.Expr) : ExprM IL.Expr := do
  return .ex binders (← autoTriggers (binders.map (·.1)) body) body

/-- The variables of a match case bound to the fields of the matched value. -/
def caseBindings (d : Datatype) (dt : Path) (p : Pattern) (s : IL.Expr) :
    ExprM (List (String × IL.Expr)) := do
  let c ← ExprM.ofExcept (d.ctor p.ctor)
  return (p.binders.zip c.fields).map fun (b, f) =>
    (b.1, Boxing.convert f.2 b.2 (.app (Naming.destructor dt p.ctor f.1) [s]))

/-- Whether a comprehension over one variable collects that variable itself. -/
def collectsBinder (x : String) : Option Source.Expr → Bool
  | none => true
  | some (.var _ y) => x == y
  | some _ => false

mutual

/-- The value of an expression. -/
def lowerExpr (v : View) : Source.Expr → ExprM IL.Expr
  | .bool _ b => return .bool b
  | .int _ n => return intConst n
  | .null _ => return Prelude.null
  | .var _ x => return .var x
  | .this _ => return v.thisExpr
  | .field i obj fid => do
    let f ← ExprM.field fid
    let h ← Heap.fieldHandle f
    let o ← lowerExpr v obj
    return Boxing.convert f.typ i.typ (Heap.readField v.heap o h)
  | .index i coll idx => do
    let c ← lowerExpr v coll
    let k ← lowerExpr v idx
    lowerIndex v coll.typ idx.typ i.typ c k
  | .slice _ coll lo hi => do
    let c ← lowerExpr v coll
    let s := match coll.typ with
      | .array _ => Prelude.seqFromArray v.heap c
      | _ => c
    let l ← lowerExpr? v lo
    let h ← lowerExpr? v hi
    return seqSlice s l h
  | .update _ coll idx value => do
    let c ← lowerExpr v coll
    let k ← lowerExpr v idx
    let e ← lowerExpr v value
    lowerUpdate coll.typ value.typ c k e
  | .arrayLength _ e => do Heap.arrayLength (← lowerExpr v e)
  | .display i kind es => do
    let elem ← elemTyp i.typ
    lowerElements v elem (displayOps kind).2 (displayOps kind).1 es
  | .mapDisplay i entries => do
    let (k, t) ← mapTyps i.typ (.mapDisplayOf i.typ)
    lowerEntries v k t Prelude.mapEmpty entries
  | .ctor _ dt c args => do
    let d ← ExprM.datatype dt
    let ctor ← ExprM.ofExcept (d.ctor c)
    return .app (Naming.ctor dt c) (← lowerArgs v ctor.fields args)
  | .destruct i e dt c f => do
    let d ← ExprM.datatype dt
    let ctor ← ExprM.ofExcept (d.ctor c)
    let fld ← ExprM.ofExcept (ctor.field f)
    let x ← lowerExpr v e
    return Boxing.convert fld.2 i.typ (.app (Naming.destructor dt c f) [x])
  | .isCtor _ e dt c => return .app (Naming.isCtor dt c) [← lowerExpr v e]
  | .old _ e => lowerExpr v.old e
  | .fresh _ e => return lowerFresh v e.typ (← lowerExpr v e)
  | .unary _ .not e => return (← lowerExpr v e).neg
  | .unary _ .neg e => return .sub (.nat 0) (← lowerExpr v e)
  | .unary _ .card e => do
    let size ← lowerCard e.typ
    return size (← lowerExpr v e)
  | .binary _ op a b => do
    let x ← lowerExpr v a
    let y ← lowerExpr v b
    lowerBinary op a.typ b.typ x y
  | .quant _ q binders range body triggers _ => do
    let wheres ← bindersWhere v.heap binders
    let r ← lowerExpr? v range
    let b ← lowerExpr v body
    let matrix := match q with
      | .all => IL.Expr.imp (.conj [wheres, r.getD .tt]) b
      | .ex => .conj [wheres, r.getD .tt, b]
    let chosen ←
      if triggers.isEmpty then autoTriggers (binders.map (·.1)) matrix
      else lowerTriggers v triggers
    let q' : IL.Quantifier := match q with
      | .all => .all
      | .ex => .ex
    return .quantify q' (sortBinders binders) chosen matrix
  | .setComp i binders range term => do
    let wheres ← bindersWhere v.heap binders
    let r ← lowerExpr v range
    let body ← match binders, collectsBinder ((binders.headD default).1) term with
      | [b], true => pure (letUnboxed b (.conj [wheres, r]))
      | _, _ => match term with
        | none => ExprM.broken .setComprehensionWithoutTerm
        | some t => do
          let elem ← elemTyp i.typ
          let x ← lowerExpr v t
          let member := Boxing.box elem (Boxing.convert t.typ elem x)
          exAuto (sortBinders binders)
            (.conj [wheres, r, .eq (.var Naming.boxVar) member])
    return Prelude.setFromPredicate (boxLambda body)
  | .mapComp i binder range term => do
    let (_, t) ← mapTyps i.typ (.mapComprehensionOf i.typ)
    let wheres ← bindersWhere v.heap [binder]
    let r ← lowerExpr v range
    let x ← lowerExpr v term
    let domain := Prelude.setFromPredicate (boxLambda (letUnboxed binder (.conj [wheres, r])))
    let value := Boxing.box t (Boxing.convert term.typ t x)
    return Prelude.mapGlue domain (boxLambda (letUnboxed binder value))
  | .letIn _ bindings body => do
    let bs ← lowerBindings v bindings
    return .lets bs (← lowerExpr v body)
  | .ite i c a b => do
    let x ← lowerExpr v a
    let y ← lowerExpr v b
    let test ← lowerExpr v c
    return .cond test (Boxing.convert a.typ i.typ x) (Boxing.convert b.typ i.typ y)
  | .cases i e arms => do
    let s ← lowerExpr v e
    let dt ← matchedDatatype e.typ
    let d ← ExprM.datatype dt
    match ← lowerArms v d dt s i.typ arms with
    | some cascade => return cascade
    | none => ExprM.broken .matchWithoutCases
  | .call i f receiver args => do
    let callee ← ExprM.function f
    let layer ← callLayer v f
    let heap := if callee.reads.isEmpty then [] else [v.heap]
    let recv ← match callee.owner with
      | none => pure []
      | some _ => lowerReceiver v receiver
    let rest ← lowerArgs v callee.params args
    let result := IL.Expr.app (Naming.layered f layer) (heap ++ recv ++ rest)
    return Boxing.convert callee.result.2 i.typ result

/-- The value of an optional expression. -/
def lowerExpr? (v : View) : Option Source.Expr → ExprM (Option IL.Expr)
  | none => return none
  | some e => return some (← lowerExpr v e)

/-- The receiver of a call, which is the current one if none is given. -/
def lowerReceiver (v : View) : Option Source.Expr → ExprM (List IL.Expr)
  | none => return [v.thisExpr]
  | some e => return [← lowerExpr v e]

/-- Arguments in the representations of their parameters. -/
def lowerArgs (v : View) (params : List Source.Binder) : List Source.Expr → ExprM (List IL.Expr)
  | [] => return []
  | e :: es => match params with
    | [] => return []
    | p :: ps => do
      let a ← lowerExpr v e
      return Boxing.convert e.typ p.2 a :: (← lowerArgs v ps es)

/-- A collection with elements added one after the other. -/
def lowerElements (v : View) (elem : Typ) (add : IL.Expr → IL.Expr → IL.Expr) (acc : IL.Expr) :
    List Source.Expr → ExprM IL.Expr
  | [] => return acc
  | e :: es => do
    let x ← lowerExpr v e
    lowerElements v elem add (add acc (Boxing.box elem (Boxing.convert e.typ elem x))) es

/-- A map with entries added one after the other. -/
def lowerEntries (v : View) (key value : Typ) (acc : IL.Expr) :
    List (Source.Expr × Source.Expr) → ExprM IL.Expr
  | [] => return acc
  | (k, e) :: rest => do
    let x ← lowerExpr v k
    let y ← lowerExpr v e
    lowerEntries v key value
      (Prelude.mapBuild acc (Boxing.box key (Boxing.convert k.typ key x))
        (Boxing.box value (Boxing.convert e.typ value y))) rest

/-- The bindings of a let. -/
def lowerBindings (v : View) : List (String × Source.Expr) → ExprM (List (String × IL.Expr))
  | [] => return []
  | (x, e) :: rest => do
    let a ← lowerExpr v e
    return (x, a) :: (← lowerBindings v rest)

/-- The cascade of match cases, built from the last one, which needs no test. -/
def lowerArms (v : View) (d : Datatype) (dt : Path) (s : IL.Expr) (result : Typ) :
    List (Pattern × Source.Expr) → ExprM (Option IL.Expr)
  | [] => return none
  | (p, body) :: rest => do
    let otherwise ← lowerArms v d dt s result rest
    let bindings ← caseBindings d dt p s
    let b ← lowerExpr v body
    let arm := IL.Expr.lets bindings (Boxing.convert body.typ result b)
    match otherwise with
    | none => return some arm
    | some cascade => return some (.cond (.app (Naming.isCtor dt p.ctor) [s]) arm cascade)

/-- The terms of a trigger. -/
def lowerTerms (v : View) : List Source.Expr → ExprM (List IL.Expr)
  | [] => return []
  | e :: es => do
    let a ← lowerExpr v e
    return a :: (← lowerTerms v es)

/-- Triggers as they are given. -/
def lowerTriggers (v : View) : List (List Source.Expr) → ExprM (List Trigger)
  | [] => return []
  | t :: ts => do
    let a ← lowerTerms v t
    return a :: (← lowerTriggers v ts)

end

/-- The arguments of a function application: the heap if the function reads it, the receiver if
the function is a member of a class, and the arguments proper. -/
def lowerCallArgs (v : View) (f : Path) (receiver : Option Source.Expr) (args : List Source.Expr) :
    ExprM (List IL.Expr) := do
  let callee ← ExprM.function f
  let heap := if callee.reads.isEmpty then [] else [v.heap]
  let recv ← match callee.owner with
    | none => pure []
    | some _ => lowerReceiver v receiver
  return heap ++ recv ++ (← lowerArgs v callee.params args)

/-! ## Frames -/

/-- That an object is in a frame, given its entries with their types. -/
def frameEntry (o : IL.Expr) (t : Typ) (e : IL.Expr) : IL.Expr :=
  match t with
  | .set _ => Prelude.setMem e (Boxing.boxRef o)
  | .multiset _ => .lt (.nat 0) (Prelude.multiplicity e (Boxing.boxRef o))
  | .seq _ => Prelude.seqContains e (Boxing.boxRef o)
  | _ => .eq o e

/-- That an object is in a modifies or reads clause. -/
def frameContains (v : View) (frame : List Source.Expr) (o : IL.Expr) : ExprM IL.Expr := do
  let entries ← frame.mapM fun e => return frameEntry o e.typ (← lowerExpr v e)
  return .disj entries

/-- A frame as a set of boxed objects. Objects that are not allocated in `freshSince` belong to it
too. -/
def frameSet (v : View) (frame : List Source.Expr) (freshSince : Option IL.Expr) :
    ExprM IL.Expr := do
  let o := Boxing.unboxRef (.var Naming.boxVar)
  let contains ← frameContains v frame o
  let body := match freshSince with
    | none => contains
    | some heap => .disj [contains, (Heap.isAlloc heap o).neg]
  return Prelude.setFromPredicate (boxLambda body)

end ContractLowering
