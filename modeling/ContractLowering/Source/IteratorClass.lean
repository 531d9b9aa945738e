import ContractLowering.Source.Decl
import ContractLowering.Source.Subst

/-!
# Iterators as classes

From the outside an iterator is a class. It has an immutable field for each in-parameter, a
mutable field for each yield-parameter with another one for its history, and the frame sets
`_new`, `_modifies` and `_reads`. Its constructor and `MoveNext` are methods without a body.
Inside its own body, histories are fields of the receiver and parameters are variables.
-/

namespace ContractLowering.Source.Iterator

/-- A set of objects. -/
def frameTyp : Typ := .set .object

/-- A field of the iterator's class. -/
def fieldId (i : Iterator) (name : String) : FieldId := ⟨i.path, name⟩

/-- The declaration of a field of the iterator's class. -/
def classField (i : Iterator) (name : String) (typ : Typ) (isMutable : Bool) : Field :=
  ⟨i.fieldId name, i.span, typ, isMutable⟩

/-- A field of an iterator object, read at the iterator's own place. -/
def fieldOf (i : Iterator) (obj : Expr) (name : String) (typ : Typ) : Expr :=
  .field ⟨i.span, typ⟩ obj (i.fieldId name)

/-- The type of the iterator's objects. -/
def selfTyp (i : Iterator) : Typ := .self i.path i.typParams

/-- A collection without elements. -/
def emptyOf (i : Iterator) (kind : Collection) (typ : Typ) : Expr := .display ⟨i.span, typ⟩ kind []

/-- The history of a yield-parameter in an iterator object. -/
def historyOf (i : Iterator) (obj : Expr) (y : Binder) : Expr :=
  i.fieldOf obj (Naming.history y.1) (.seq y.2)

/-- A checked clause. -/
def clause (e : Expr) : Spec := ⟨e, false, false⟩

/-- What stands for the histories in the iterator's contract: fields of an object. -/
def historyView (i : Iterator) (obj : Expr) : List (String × Expr) :=
  i.yields.map fun y => (Naming.history y.1, i.historyOf obj y)

/-- What stands for parameters and histories in the contract seen from outside: fields of an
object. -/
def outsideView (i : Iterator) (obj : Expr) : List (String × Expr) :=
  i.ins.map (fun x => (x.1, i.fieldOf obj x.1 x.2))
  ++ i.yields.flatMap fun y =>
    [(Naming.history y.1, i.historyOf obj y), (y.1, i.fieldOf obj y.1 y.2)]

/-- Clauses under a view. -/
def viewSpecs (view : List (String × Expr)) (specs : List Spec) : List Spec :=
  specs.map fun s => { s with expr := s.expr.subst (.ofBindings none view) }

/-- That an object, or every object of a set, is in a frame. -/
def includedIn (span : Span) (e frame : Expr) : Expr :=
  let op : BinOp := match e.typ with
    | .set _ => .le
    | _ => .mem
  .mkRel span op e frame

/-- The constructor: a new object whose fields hold the arguments, with empty histories, nothing
allocated yet, and the iterator's frames inside its frame sets. -/
def ctorMethod (i : Iterator) : Method :=
  let span := i.span
  let obj := Expr.mkVar span "iter" i.selfTyp
  let ins := i.ins.map fun x => Expr.mkRel span .eq (i.fieldOf obj x.1 x.2) (.mkVar span x.1 x.2)
  let histories := i.yields.map fun y =>
    Expr.mkRel span .eq (i.historyOf obj y) (i.emptyOf .seq (.seq y.2))
  let nothingNew :=
    Expr.mkRel span .eq (i.fieldOf obj Naming.iterNew frameTyp) (i.emptyOf .set frameTyp)
  let frames := [(Naming.iterModifies, i.modifies), (Naming.iterReads, i.reads)].flatMap
    fun (name, frame) => frame.map fun e => includedIn span e (i.fieldOf obj name frameTyp)
  { name := i.path.member Naming.iterCtor
    span
    owner := none
    isLemma := false
    typParams := i.typParams
    ins := i.ins
    outs := [("iter", i.selfTyp)]
    requires := i.requires
    modifies := []
    ensures := ([Expr.mkRel span .ne obj (.mkNull span), Expr.fresh ⟨span, .bool⟩ obj]
      ++ ins ++ histories ++ [nothingNew] ++ frames).map clause
    decreases := none
    body := none
    induction := .off
    refinement := {} }

/-- The next value: histories grow by the yielded values or stay, the yield-ensures clauses hold
if there is a value and the ensures clauses if there is none. -/
def moveNextMethod (i : Iterator) : Method :=
  let span := i.span
  let this := Expr.mkThis span i.selfTyp
  let more := Expr.mkVar span Naming.more .bool
  let less := Expr.unary ⟨span, .bool⟩ .not more
  let histories := i.yields.flatMap fun y =>
    let history := i.historyOf this y
    let before := Expr.mkOld span history
    let last := Expr.display ⟨span, .seq y.2⟩ .seq [i.fieldOf this y.1 y.2]
    let extended := Expr.binary ⟨span, .seq y.2⟩ .add before last
    [clause (.mkRel span .implies more (.mkRel span .eq history extended)),
     clause (.mkRel span .implies less (.mkRel span .eq history before))]
  let view := i.outsideView this
  let guarded := fun (guard : Expr) (specs : List Spec) =>
    (viewSpecs view specs).map fun s => { s with expr := .mkRel span .implies guard s.expr }
  { name := i.path.member Naming.iterMoveNext
    span
    owner := some i.path
    isLemma := false
    typParams := i.typParams
    ins := []
    outs := [(Naming.more, .bool)]
    requires := viewSpecs view i.yieldRequires
    modifies := [this, i.fieldOf this Naming.iterModifies frameTyp,
      i.fieldOf this Naming.iterNew frameTyp]
    ensures := histories ++ guarded more i.yieldEnsures ++ guarded less i.ensures
    decreases := none
    body := none
    induction := .off
    refinement := {} }

/-- The class through which callers see an iterator. -/
def toClass (i : Iterator) : Class :=
  { path := i.path
    span := i.span
    typParams := i.typParams
    fields := i.ins.map (fun x => i.classField x.1 x.2 false)
      ++ i.yields.flatMap (fun y =>
          [i.classField y.1 y.2 true, i.classField (Naming.history y.1) (.seq y.2) true])
      ++ [i.classField Naming.iterNew frameTyp true, i.classField Naming.iterModifies frameTyp false,
          i.classField Naming.iterReads frameTyp false]
    functions := []
    methods := [i.ctorMethod, i.moveNextMethod] }

/-- The iterator as its body sees it: in the clauses that hold at a yield or at the end,
histories are fields of the receiver. -/
def insideView (i : Iterator) : Iterator :=
  let view := i.historyView (.mkThis i.span i.selfTyp)
  { i with
    ensures := viewSpecs view i.ensures
    yieldRequires := viewSpecs view i.yieldRequires
    yieldEnsures := viewSpecs view i.yieldEnsures }

end ContractLowering.Source.Iterator
