import ContractLowering.Lowering.Termination

/-!
# Obligations of single operations

An operation of the source language may be undefined: a field of null, an index out of range, a
division by zero, a call whose precondition fails. `nodeObligations` lists what the outermost
operation of an expression needs, without looking into its operands and without the conditions
under which it is evaluated. A call also gives something: the fact `canCallFact?` that it was
made.
-/

namespace ContractLowering

open IL Source

/-- A condition and the message of its failure. -/
structure Obligation where
  cond : IL.Expr
  msg : Message
deriving Inhabited

/-- What the enclosing member restricts beyond definedness: which objects may be read, and what
recursive calls have to stay below. -/
structure Limits where
  reads : Option (List Source.Expr) := none
  termination : Option Termination.Entry := none
deriving Inhabited

/-- The message of a value that may not be a natural number. -/
def natMessage (span : Span) : Message :=
  .error "value does not satisfy the subset constraints of 'nat'" span

/-- The message of a null target. -/
def nullMessage (span : Span) : Message := .error "target object may be null" span

/-- The message of an index that may be out of range. -/
def indexMessage (span : Span) : Message := .error "index out of range" span

/-- That an integer is an index below a length. -/
def inRange (i length : IL.Expr) : IL.Expr := .conj [.le (.nat 0) i, .lt i length]

/-- Whether a value of one type has to be checked where a natural number is expected. -/
def needsNatCheck (source target : Typ) : Bool :=
  match target, source with
  | .nat, .nat => false
  | .nat, _ => true
  | _, _ => false

/-- Whether an expression is the receiver, which is never null. -/
def Source.Expr.isThis : Source.Expr → Bool
  | .this _ => true
  | _ => false

/-- The obligation that a constructor of a datatype has a case. -/
def missingCase (span : Span) (ctor : String) : Obligation :=
  ⟨.ff, .error ("missing case in match expression: " ++ ctor) span⟩

namespace Obligation

/-- That an object is there. -/
def nonNull (v : View) (obj : Source.Expr) : ExprM (List Obligation) := do
  if obj.isThis then return []
  let o ← lowerExpr v obj
  return [⟨.ne o Prelude.null, nullMessage obj.span⟩]

/-- That integer arguments for natural parameters are natural numbers. -/
def natArgs (v : View) : List Source.Expr → List Source.Binder → ExprM (List Obligation)
  | arg :: args, param :: params => do
    let here ←
      if needsNatCheck arg.typ param.2 then do
        let a ← lowerExpr v arg
        pure [⟨.le (.nat 0) a, natMessage arg.span⟩]
      else pure []
    return here ++ (← natArgs v args params)
  | _, _ => return []

/-- That an object may be read, if reads are restricted. -/
def inReads (v : View) (reads : Option (List Source.Expr)) (obj : Source.Expr) (note : String) :
    ExprM (List Obligation) :=
  match reads with
  | none => return []
  | some frame => do
    let o ← lowerExpr v obj
    let cond ← frameContains v frame o
    return [⟨cond, .error note obj.span⟩]

/-- The length of a sequence or array. -/
def lengthOf (v : View) (coll : Source.Expr) : ExprM IL.Expr := do
  let c ← lowerExpr v coll
  match coll.typ with
  | .array _ => Heap.arrayLength c
  | _ => return Prelude.seqLength c

/-- What reading from an array needs: the array is there and may be read. -/
def arrayRead (v : View) (limits : Limits) (coll : Source.Expr) : ExprM (List Obligation) :=
  match coll.typ with
  | .array _ => do
    let there ← nonNull v coll
    let allowed ← inReads v limits.reads coll "insufficient reads clause to read array element"
    return there ++ allowed
  | _ => return []

/-- The receiver and the parameters of a callee bound to the arguments of a call. -/
def calleeBindings (v : View) (owner : Option Path) (params : List Source.Binder)
    (receiver : Option Source.Expr) (args : List Source.Expr) :
    ExprM (List (String × IL.Expr)) := do
  let this ← match owner with
    | none => pure []
    | some _ => lowerReceiver v receiver
  let values ← lowerArgs v params args
  return this.map (Naming.this, ·) ++ (params.map (·.1)).zip values

/-- The preconditions of a function at the arguments of a call. -/
def preconditions (v : View) (call : Span) (bindings : List (String × IL.Expr))
    (requires : List Spec) : ExprM (List Obligation) :=
  (requires.filter fun r => !r.free).mapM fun r => do
    let cond ← lowerExpr v r.expr
    return ⟨.lets bindings cond,
      .precondition "possible violation of function precondition" call r.expr.span⟩

/-- That whatever a callee may read the caller may read too. -/
def readsIncluded (v callee : View) (call : Span) (bindings : List (String × IL.Expr))
    (calleeReads : List Source.Expr) (reads : Option (List Source.Expr)) :
    ExprM (List Obligation) :=
  match reads with
  | none => return []
  | some frame => do
    if calleeReads.isEmpty then return []
    let inner ← frameContains callee calleeReads Heap.obj
    let outer ← frameContains v frame Heap.obj
    let cond := IL.Expr.all [(Naming.objVar, Prelude.refSort)] []
      (.imp (.lets bindings inner) outer)
    return [⟨cond, .error "insufficient reads clause to invoke function" call⟩]

/-- What a function call needs: a receiver, natural arguments where they are expected, the
preconditions, and what the enclosing member restricts. -/
def ofCall (v : View) (limits : Limits) (span : Span) (f : Path) (receiver : Option Source.Expr)
    (args : List Source.Expr) : ExprM (List Obligation) := do
  let callee ← ExprM.function f
  let there ← match receiver with
    | none => pure []
    | some r => nonNull v r
  let nats ← natArgs v args callee.params
  let bindings ← calleeBindings v callee.owner callee.params receiver args
  let inner := { v with this := none }
  let pre ← preconditions inner span bindings callee.requires
  let reads ← readsIncluded v inner span bindings callee.reads limits.reads
  let goesDown ← match limits.termination with
    | none => pure []
    | some entry => do
      let measure := Measure.ofMember callee.decreases callee.span callee.params
      let checks ← Termination.callChecks inner entry f measure bindings span
      pure (checks.map fun c => (⟨c.1, c.2⟩ : Obligation))
  return there ++ nats ++ pre ++ reads ++ goesDown

/-- What an index needs. -/
def ofIndex (v : View) (limits : Limits) (coll idx : Source.Expr) : ExprM (List Obligation) :=
  match coll.typ with
  | .seq _ | .array _ => do
    let readable ← arrayRead v limits coll
    let i ← lowerExpr v idx
    let length ← lengthOf v coll
    return readable ++ [⟨inRange i length, indexMessage idx.span⟩]
  | .map key _ => do
    let i ← lowerExpr v idx
    let c ← lowerExpr v coll
    let k := Boxing.box key (Boxing.convert idx.typ key i)
    return [⟨Prelude.setMem (Prelude.mapDomain c) k,
      .error "element may not be in domain" idx.span⟩]
  | _ => return []

/-- What a slice needs: its bounds in order and within the length. -/
def ofSlice (v : View) (limits : Limits) (coll : Source.Expr) (lo hi : Option Source.Expr) :
    ExprM (List Obligation) := do
  let readable ← arrayRead v limits coll
  let length ← lengthOf v coll
  let l ← lowerExpr? v lo
  let lower := match lo, l with
    | some e, some x =>
      [(⟨.conj [.le (.nat 0) x, .le x length], .error "lower bound out of range" e.span⟩
        : Obligation)]
    | _, _ => []
  let upper ← match hi with
    | none => pure []
    | some e => do
      let x ← lowerExpr v e
      let floor := l.getD (.nat 0)
      pure [(⟨.conj [.le floor x, .le x length], .error "upper bound out of range" e.span⟩
        : Obligation)]
  return readable ++ lower ++ upper

end Obligation

/-- The obligations of the outermost operation of an expression. -/
def nodeObligations (v : View) (limits : Limits) : Source.Expr → ExprM (List Obligation)
  | .field _ obj fid => do
    let there ← Obligation.nonNull v obj
    match limits.reads with
    | none => return there
    | some _ =>
      let f ← ExprM.field fid
      if f.isMutable then
        let allowed ←
          Obligation.inReads v limits.reads obj "insufficient reads clause to read field"
        return there ++ allowed
      else return there
  | .index _ coll idx => Obligation.ofIndex v limits coll idx
  | .slice _ coll lo hi => Obligation.ofSlice v limits coll lo hi
  | .update _ coll idx _ =>
    match coll.typ with
    | .seq _ => do
      let i ← lowerExpr v idx
      let c ← lowerExpr v coll
      return [⟨inRange i (Prelude.seqLength c), indexMessage idx.span⟩]
    | _ => return []
  | .arrayLength _ arr => Obligation.nonNull v arr
  | .ctor _ dt c args => do
    let d ← ExprM.datatype dt
    let ctor ← ExprM.ofExcept (d.ctor c)
    Obligation.natArgs v args ctor.fields
  | .destruct i e dt c f => do
    let d ← ExprM.datatype dt
    if d.ctors.length > 1 then
      let x ← lowerExpr v e
      return [⟨.app (Naming.isCtor dt c) [x],
        .error ("destructor '" ++ f ++ "' can only be applied to datatype values constructed by '"
          ++ c ++ "'") i.span⟩]
    else return []
  | .binary _ .div _ b | .binary _ .mod _ b => do
    let x ← lowerExpr v b
    return [⟨.ne x (.nat 0), .error "possible division by zero" b.span⟩]
  | .call i f receiver args => Obligation.ofCall v limits i.span f receiver args
  | _ => return []

/-- The fact that a call was made, which later code may assume. -/
def canCallFact? (v : View) : Source.Expr → ExprM (Option IL.Expr)
  | .call _ f receiver args => do
    let values ← lowerCallArgs v f receiver args
    return some (.app (Naming.layered f .canCall) values)
  | _ => return none

end ContractLowering
