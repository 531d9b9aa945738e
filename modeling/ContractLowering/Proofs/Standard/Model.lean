import ContractLowering.Proofs.IL.Semantics
import ContractLowering.Proofs.Standard.Values

/-!
# The standard model

In the standard model a box holds a value of exactly one native sort, collections are finite
collections of boxes, and a heap maps objects and fields to boxes. `Op` lists the functions of the
prelude with their names and sorts, `Op.eval` says what each of them does. What declarations of a
program add is given by an `Interp`.

Lambdas say nothing: the model is about what is declared, where no lambda stands.
-/

namespace ContractLowering.Standard

open IL Prelude

/-! ## Functions of the prelude -/

/-- The functions of the prelude. -/
inductive Op where
  | box (s : BoxSort)
  | unbox (s : BoxSort)
  | isBox (s : BoxSort)
  | read | update | isGoodHeap | heapSucc | dtype | fieldDim | declType | indexField
  | indexFieldInv | arrayLength
  | datatypeCtorId | dtRank | isAllocDt
  | setMem | setUnionOne | setUnion | setIntersection | setDifference | setSubset | setEqual
  | setDisjoint | setCard | setFromPredicate | isGoodSet
  | multiplicity | multisetUnionOne | multisetUnion | multisetIntersection | multisetDifference
  | multisetSubset | multisetEqual | multisetDisjoint | multisetCard | isGoodMultiset
  | seqLength | seqIndex | seqBuild | seqAppend | seqUpdate | seqTake | seqDrop | seqEqual
  | seqSameUntil | seqContains | seqFromArray
  | mapDomain | mapElements | mapBuild | mapCard | mapEqual | mapGlue
deriving DecidableEq

namespace Op

/-- The name of a function and the sort of its values. -/
def declared : Op → String × Srt
  | box s => (s.boxName, boxSort)
  | unbox s => (s.unboxName, s.sort)
  | isBox s => (s.isBoxName, .bool)
  | read => ("read", boxSort)
  | update => ("update", heapSort)
  | isGoodHeap => ("$IsGoodHeap", .bool)
  | heapSucc => ("$HeapSucc", .bool)
  | dtype => ("dtype", classNameSort)
  | fieldDim => ("FDim", .int)
  | declType => ("DeclType", classNameSort)
  | indexField => ("IndexField", fieldSort)
  | indexFieldInv => ("IndexField.inv", .int)
  | arrayLength => ("array.Length", .int)
  | datatypeCtorId => ("DatatypeCtorId", ctorIdSort)
  | dtRank => ("DtRank", .int)
  | isAllocDt => ("$IsAllocDt", .bool)
  | setMem => ("Set.mem", .bool)
  | setUnionOne => ("Set.UnionOne", setSort)
  | setUnion => ("Set.Union", setSort)
  | setIntersection => ("Set.Intersection", setSort)
  | setDifference => ("Set.Difference", setSort)
  | setSubset => ("Set.Subset", .bool)
  | setEqual => ("Set.Equal", .bool)
  | setDisjoint => ("Set.Disjoint", .bool)
  | setCard => ("Set.Card", .int)
  | setFromPredicate => ("Set.FromPredicate", setSort)
  | isGoodSet => ("$IsGoodSet", .bool)
  | multiplicity => ("MultiSet.Multiplicity", .int)
  | multisetUnionOne => ("MultiSet.UnionOne", multisetSort)
  | multisetUnion => ("MultiSet.Union", multisetSort)
  | multisetIntersection => ("MultiSet.Intersection", multisetSort)
  | multisetDifference => ("MultiSet.Difference", multisetSort)
  | multisetSubset => ("MultiSet.Subset", .bool)
  | multisetEqual => ("MultiSet.Equal", .bool)
  | multisetDisjoint => ("MultiSet.Disjoint", .bool)
  | multisetCard => ("MultiSet.Card", .int)
  | isGoodMultiset => ("$IsGoodMultiSet", .bool)
  | seqLength => ("Seq.Length", .int)
  | seqIndex => ("Seq.Index", boxSort)
  | seqBuild => ("Seq.Build", seqSort)
  | seqAppend => ("Seq.Append", seqSort)
  | seqUpdate => ("Seq.Update", seqSort)
  | seqTake => ("Seq.Take", seqSort)
  | seqDrop => ("Seq.Drop", seqSort)
  | seqEqual => ("Seq.Equal", .bool)
  | seqSameUntil => ("Seq.SameUntil", .bool)
  | seqContains => ("Seq.Contains", .bool)
  | seqFromArray => ("Seq.FromArray", seqSort)
  | mapDomain => ("Map.Domain", setSort)
  | mapElements => ("Map.Elements", boxSort)
  | mapBuild => ("Map.Build", mapSort)
  | mapCard => ("Map.Card", .int)
  | mapEqual => ("Map.Equal", .bool)
  | mapGlue => ("Map.Glue", mapSort)

def name (op : Op) : String := op.declared.1

def result (op : Op) : Srt := op.declared.2

/-- All functions. -/
def all : List Op :=
  BoxSort.all.flatMap (fun s => [box s, unbox s, isBox s]) ++
  [read, update, isGoodHeap, heapSucc, dtype, fieldDim, declType, indexField, indexFieldInv,
   arrayLength, datatypeCtorId, dtRank, isAllocDt,
   setMem, setUnionOne, setUnion, setIntersection, setDifference, setSubset, setEqual, setDisjoint,
   setCard, setFromPredicate, isGoodSet,
   multiplicity, multisetUnionOne, multisetUnion, multisetIntersection, multisetDifference,
   multisetSubset, multisetEqual, multisetDisjoint, multisetCard, isGoodMultiset,
   seqLength, seqIndex, seqBuild, seqAppend, seqUpdate, seqTake, seqDrop, seqEqual, seqSameUntil,
   seqContains, seqFromArray, mapDomain, mapElements, mapBuild, mapCard, mapEqual, mapGlue]

/-- The function with a name. -/
def ofName? (f : String) : Option Op := all.find? fun op => op.name == f

theorem mem_all (op : Op) : op ∈ all := by
  cases op with
  | box s | unbox s | isBox s => cases s <;> decide
  | _ => decide

theorem ofName?_name (op : Op) : ofName? op.name = some op := by
  have h : ∀ op ∈ all, ofName? op.name = some op := by decide +kernel
  exact h op op.mem_all

theorem name_of_ofName? {f : String} {op : Op} (h : ofName? f = some op) : op.name = f := by
  simpa using List.find?_some h

end Op

/-! ## What the functions do -/

namespace Ref

/-- The class of an object. -/
def cls : Ref → String
  | null => ""
  | object c _ _ => c

/-- The length of an array. -/
def length : Ref → ℕ
  | null => 0
  | object _ _ n => n

end Ref

namespace Fld

/-- The field that says whether an object is allocated. -/
def alloc : Fld := named "alloc"

/-- The number of indices that a field takes. -/
def dim : Fld → ℤ
  | named _ => 0
  | index _ => 1

/-- The index of an element of an array. -/
def toIndex : Fld → ℤ
  | named _ => 0
  | index i => i

end Fld

namespace Store

/-- An object is allocated in a heap. -/
def Allocated (h : Store) (r : Ref) : Prop := Val.unbox .bool (h.get r .alloc) = .bool true

/-- What is allocated in one heap is allocated in another. -/
def Below (h k : Store) : Prop := ∀ r, h.Allocated r → k.Allocated r

open Classical in
/-- The locations of a heap after an assignment. -/
noncomputable def assign (h : Store) (r : Ref) (f : Fld) (n : ℕ) : Ref → Fld → ℕ :=
  fun r' f' => if r = r' ∧ f = f' then n else h.get r' f'

/-- A heap after an assignment. It is intact if the one before was and all objects are kept. -/
noncomputable def set (h : Store) (r : Ref) (f : Fld) (n : ℕ) : Store :=
  ⟨h.assign r f n, h.intact ∧ h.Below ⟨h.assign r f n, True⟩⟩

end Store

/-- The element of a sequence, which is one and the same box outside its range. -/
def element (l : List ℕ) (i : ℤ) : ℕ := if 0 ≤ i then l.getD i.toNat 0 else 0

/-- A sequence with an element replaced, if the index is in its range. -/
def replaced (l : List ℕ) (i : ℤ) (n : ℕ) : List ℕ := if 0 ≤ i then l.set i.toNat n else l

/-- What the declarations of a program add to the prelude. -/
structure Interp where
  /-- The functions that the prelude does not declare. -/
  func : String → List Val → Val
  /-- The constant of the class that declares a field. -/
  owner : String → String
  /-- The constant of the constructor that built a value. -/
  ctorId : Data → String
  /-- What a value refers to is allocated in a heap. -/
  allocated : Data → Store → Prop
  /-- The fields of allocated objects hold values of their types. -/
  good : Store → Prop

open Classical in
/-- The Boolean of a proposition. -/
noncomputable def Val.ofProp (p : Prop) : Val := .bool (decide p)

namespace Op

/-- What a function does. -/
noncomputable def eval (I : Interp) (op : Op) (args : List Val) : Val :=
  let arg := fun i => args.getD i .lambda
  let a := arg 0
  let b := arg 1
  let c := arg 2
  match op with
  | box _ => .box a.toCode
  | unbox s => .unbox s a.toBox
  | isBox s => .ofProp ((Val.ofContent (content a.toBox)).sort = s.sort)
  | read => .box (a.toStore.get b.toRef c.toFld)
  | update => .heap (a.toStore.set b.toRef c.toFld (arg 3).toBox)
  | isGoodHeap => .ofProp (a.toStore.intact ∧ I.good a.toStore)
  | heapSucc => .ofProp (a.toStore.Below b.toStore)
  | dtype => .cls a.toRef.cls
  | fieldDim => .int a.toFld.dim
  | declType => match a.toFld with
    | .named x => .cls (I.owner x)
    | .index _ => .cls ""
  | indexField => .field (.index a.toInt)
  | indexFieldInv => .int a.toFld.toIndex
  | arrayLength => .int a.toRef.length
  | datatypeCtorId => .ctorId (I.ctorId a.toData)
  | dtRank => .int (code (.inl a.toData))
  | isAllocDt => .ofProp (I.allocated a.toData b.toStore)
  | setMem => .ofProp (b.toBox ∈ a.toSet)
  | setUnionOne => .set (insert b.toBox a.toSet)
  | setUnion => .set (a.toSet ∪ b.toSet)
  | setIntersection => .set (a.toSet ∩ b.toSet)
  | setDifference => .set (a.toSet \ b.toSet)
  | setSubset => .ofProp (a.toSet ⊆ b.toSet)
  | setEqual => .ofProp (a.toSet = b.toSet)
  | setDisjoint => .ofProp (Disjoint a.toSet b.toSet)
  | setCard => .int a.toSet.card
  | setFromPredicate => .set ∅
  | isGoodSet => .bool true
  | multiplicity => .int (a.toMultiset.count b.toBox)
  | multisetUnionOne => .multiset (b.toBox ::ₘ a.toMultiset)
  | multisetUnion => .multiset (a.toMultiset + b.toMultiset)
  | multisetIntersection => .multiset (a.toMultiset ∩ b.toMultiset)
  | multisetDifference => .multiset (a.toMultiset - b.toMultiset)
  | multisetSubset => .ofProp (a.toMultiset ≤ b.toMultiset)
  | multisetEqual => .ofProp (a.toMultiset = b.toMultiset)
  | multisetDisjoint => .ofProp (Disjoint a.toMultiset b.toMultiset)
  | multisetCard => .int a.toMultiset.card
  | isGoodMultiset => .bool true
  | seqLength => .int a.toSeq.length
  | seqIndex => .box (element a.toSeq b.toInt)
  | seqBuild => .seq (a.toSeq ++ [b.toBox])
  | seqAppend => .seq (a.toSeq ++ b.toSeq)
  | seqUpdate => .seq (replaced a.toSeq b.toInt c.toBox)
  | seqTake => .seq (a.toSeq.take b.toInt.toNat)
  | seqDrop => .seq (a.toSeq.drop b.toInt.toNat)
  | seqEqual => .ofProp (a.toSeq = b.toSeq)
  | seqSameUntil => .ofProp (∀ i, 0 ≤ i → i < c.toInt → element a.toSeq i = element b.toSeq i)
  | seqContains => .ofProp (b.toBox ∈ a.toSeq)
  | seqFromArray =>
    .seq ((List.range b.toRef.length).map fun i : ℕ => a.toStore.get b.toRef (.index i))
  | mapDomain => .set a.toMap.support
  | mapElements => .box (a.toMap b.toBox - 1)
  | mapBuild => .map (a.toMap.update b.toBox (c.toBox + 1))
  | mapCard => .int a.toMap.support.card
  | mapEqual => .ofProp (a.toMap = b.toMap)
  | mapGlue => .map (Finsupp.onFinset a.toSet (fun n => if n ∈ a.toSet then 1 else 0) (by simp))

/-- The values of a function have its sort, whatever the arguments are. -/
theorem sort_eval (I : Interp) (op : Op) (args : List Val) : (op.eval I args).sort = op.result := by
  cases op with
  | unbox s => exact Val.sort_unbox s _
  | declType => unfold eval; dsimp only; split <;> rfl
  | _ => rfl

end Op

/-! ## The model -/

theorem Val.ofProp_eq_true {p : Prop} : Val.ofProp p = .bool true ↔ p := by simp [Val.ofProp]

@[simp] theorem Val.ofProp_inj {p q : Prop} : Val.ofProp p = .ofProp q ↔ (p ↔ q) := by
  simp [Val.ofProp]

/-- The standard model with what declarations add. -/
noncomputable def model (I : Interp) : Model where
  Val := Val
  ofProp := Val.ofProp
  truth v := v = .bool true
  truth_ofProp _ := Val.ofProp_eq_true
  ofInt := .int
  toInt := Val.toInt
  toInt_ofInt _ := rfl
  carrier s v := v.sort = s
  carrier_bool v := by
    refine Val.sort_eq_bool.trans ⟨?_, ?_⟩
    · rintro ⟨b, rfl⟩
      exact ⟨b = true, by simp [Val.ofProp]⟩
    · rintro ⟨p, rfl⟩
      exact ⟨_, rfl⟩
  carrier_int v := Val.sort_eq_int
  app f args := match Op.ofName? f with
    | some op => op.eval I args
    | none => I.func f args
  lam _ := .lambda
  applyLam s _ _ := .default s
  divZero n := n
  modZero n := n

variable {I : Interp}

@[simp] theorem carrier_iff {s : Srt} {v : Val} : (model I).carrier s v ↔ v.sort = s := Iff.rfl

@[simp] theorem truth_iff {v : Val} : (model I).truth v ↔ v = .bool true := Iff.rfl

@[simp] theorem model_ofProp (p : Prop) : (model I).ofProp p = .ofProp p := rfl

@[simp] theorem model_toInt (v : Val) : (model I).toInt v = v.toInt := rfl

@[simp] theorem model_ofInt (n : ℤ) : (model I).ofInt n = .int n := rfl

theorem app_op (op : Op) (args : List Val) : (model I).app op.name args = op.eval I args := by
  show (match Op.ofName? op.name with
    | some op => op.eval I args
    | none => I.func op.name args) = _
  rw [Op.ofName?_name]

theorem sort_app {f : String} {op : Op} (h : Op.ofName? f = some op) (args : List Val) :
    ((model I).app f args : Val).sort = op.result := by
  rw [← Op.name_of_ofName? h, app_op]
  exact Op.sort_eval I op args

/-- A function that the prelude does not declare. -/
theorem app_func {f : String} (h : Op.ofName? f = none) (args : List Val) :
    (model I).app f args = I.func f args := by
  show (match Op.ofName? f with
    | some op => op.eval I args
    | none => I.func f args) = _
  rw [h]

/-! ## Values of expressions -/

/-- The value of an expression in the standard model. -/
noncomputable def value (I : Interp) (old ρ : String → Val) (e : Expr) : Val :=
  e.eval (M := model I) old ρ

/-- The truth of a formula in the standard model. -/
def IsTrue (I : Interp) (old ρ : String → Val) (e : Expr) : Prop := Holds (M := model I) old ρ e

section

variable {old ρ : String → Val}

theorem isTrue_iff {e : Expr} : IsTrue I old ρ e ↔ value I old ρ e = .bool true := Iff.rfl

theorem isTrue_of_value {e : Expr} {p : Prop} (h : value I old ρ e = .ofProp p) :
    IsTrue I old ρ e ↔ p := by
  rw [isTrue_iff, h, Val.ofProp_eq_true]

@[simp] theorem value_var (x : String) : value I old ρ (.var x) = ρ x := rfl

theorem value_num (digits : String) :
    value I old ρ (.num digits) = .int (Nat.ofDigitChars 10 digits.toList 0) := rfl

@[simp] theorem value_applyLambda (s : Srt) (f : Expr) (args : List Expr) :
    value I old ρ (.applyLambda s f args) = .default s := rfl

theorem value_op (op : Op) (args : List Expr) :
    value I old ρ (.app op.name args) = op.eval I (args.map (value I old ρ)) :=
  (Expr.eval_app (M := model I) op.name args).trans (app_op op _)

theorem value_func {f : String} (h : Op.ofName? f = none) (args : List Expr) :
    value I old ρ (.app f args) = I.func f (args.map (value I old ρ)) :=
  (Expr.eval_app (M := model I) f args).trans (app_func h _)

@[simp] theorem value_eq (a b : Expr) :
    value I old ρ (.eq a b) = .ofProp (value I old ρ a = value I old ρ b) :=
  Expr.eval_eq (M := model I) a b

@[simp] theorem value_le (a b : Expr) :
    value I old ρ (.le a b) = .ofProp ((value I old ρ a).toInt ≤ (value I old ρ b).toInt) :=
  Expr.eval_le (M := model I) a b

@[simp] theorem value_lt (a b : Expr) :
    value I old ρ (.lt a b) = .ofProp ((value I old ρ a).toInt < (value I old ρ b).toInt) :=
  Expr.eval_lt (M := model I) a b

@[simp] theorem value_not (e : Expr) : value I old ρ (.not e) = .ofProp (¬ IsTrue I old ρ e) := rfl

@[simp] theorem value_implies (a b : Expr) :
    value I old ρ (.binary .implies a b) = .ofProp (IsTrue I old ρ a → IsTrue I old ρ b) := rfl

theorem value_multi (op : MultiOp) (es : List Expr) :
    value I old ρ (.multi op es) = (model I).multi op (es.map (value I old ρ)) :=
  Expr.eval_multi (M := model I) op es

@[simp] theorem value_and (es : List Expr) :
    value I old ρ (.multi .and es) = .ofProp (∀ e ∈ es, IsTrue I old ρ e) := by
  refine (value_multi .and es).trans (congrArg Val.ofProp (propext ?_))
  show (∀ v ∈ es.map (value I old ρ), v = .bool true) ↔ _
  simp [isTrue_iff]

@[simp] theorem value_or (es : List Expr) :
    value I old ρ (.multi .or es) = .ofProp (∃ e ∈ es, IsTrue I old ρ e) := by
  refine (value_multi .or es).trans (congrArg Val.ofProp (propext ?_))
  show (∃ v ∈ es.map (value I old ρ), v = .bool true) ↔ _
  simp [isTrue_iff]

@[simp] theorem value_add (a b : Expr) : value I old ρ (.multi .add [a, b]) =
    .int ((value I old ρ a).toInt + (value I old ρ b).toInt) := by
  refine (value_multi .add [a, b]).trans (congrArg Val.int ?_)
  exact congrArg ((value I old ρ a).toInt + ·) (Int.add_zero _)

@[simp] theorem value_sub (a b : Expr) : value I old ρ (.multi .sub [a, b]) =
    .int ((value I old ρ a).toInt - (value I old ρ b).toInt) := by
  refine (value_multi .sub [a, b]).trans (congrArg Val.int ?_)
  exact congrArg ((value I old ρ a).toInt - ·) (Int.add_zero _)

open Classical in
@[simp] theorem value_ite (c a b : Expr) : value I old ρ (.ite c a b) =
    if IsTrue I old ρ c then value I old ρ a else value I old ρ b := rfl

@[simp] theorem isTrue_eq (a b : Expr) :
    IsTrue I old ρ (.eq a b) ↔ value I old ρ a = value I old ρ b :=
  isTrue_of_value (value_eq a b)

@[simp] theorem isTrue_le (a b : Expr) :
    IsTrue I old ρ (.le a b) ↔ (value I old ρ a).toInt ≤ (value I old ρ b).toInt :=
  isTrue_of_value (value_le a b)

@[simp] theorem isTrue_lt (a b : Expr) :
    IsTrue I old ρ (.lt a b) ↔ (value I old ρ a).toInt < (value I old ρ b).toInt :=
  isTrue_of_value (value_lt a b)

@[simp] theorem isTrue_not (e : Expr) : IsTrue I old ρ (.not e) ↔ ¬ IsTrue I old ρ e :=
  isTrue_of_value (value_not e)

@[simp] theorem isTrue_implies (a b : Expr) :
    IsTrue I old ρ (.binary .implies a b) ↔ (IsTrue I old ρ a → IsTrue I old ρ b) :=
  isTrue_of_value (value_implies a b)

@[simp] theorem isTrue_and (es : List Expr) :
    IsTrue I old ρ (.multi .and es) ↔ ∀ e ∈ es, IsTrue I old ρ e :=
  isTrue_of_value (value_and es)

@[simp] theorem isTrue_or (es : List Expr) :
    IsTrue I old ρ (.multi .or es) ↔ ∃ e ∈ es, IsTrue I old ρ e :=
  isTrue_of_value (value_or es)

/-! ### Quantifiers -/

theorem value_quant (q : Quantifier) (bs : List Binder) (ts : List Trigger) (e : Expr) :
    value I old ρ (.quant q bs ts e) = .ofProp (IsTrue I old ρ (.quant q bs ts e)) := by
  cases q with
  | all => exact congrArg Val.ofProp (propext ((model I).truth_ofProp _).symm)
  | ex => exact congrArg Val.ofProp (propext ((model I).truth_ofProp _).symm)

theorem isTrue_quant_all (bs : List Binder) (ts : List Trigger) (e : Expr) :
    IsTrue I old ρ (.quant .all bs ts e) ↔
      ∀ ρ' : String → Val, Model.Assigns (M := model I) bs ρ ρ' → IsTrue I old ρ' e :=
  (model I).truth_ofProp _

theorem isTrue_quant_ex (bs : List Binder) (ts : List Trigger) (e : Expr) :
    IsTrue I old ρ (.quant .ex bs ts e) ↔
      ∃ ρ' : String → Val, Model.Assigns (M := model I) bs ρ ρ' ∧ IsTrue I old ρ' e :=
  (model I).truth_ofProp _

theorem isTrue_all_nil (ts : List Trigger) (e : Expr) :
    IsTrue I old ρ (.quant .all [] ts e) ↔ IsTrue I old ρ e := by
  rw [isTrue_quant_all]
  exact ⟨fun h => h ρ (Model.assigns_nil.2 rfl), fun h ρ' hρ' => Model.assigns_nil.1 hρ' ▸ h⟩

/-- A statement about all values is one about the values of each binder in turn. -/
theorem isTrue_all_cons (x : String) (s : Srt) (bs : List Binder) (ts : List Trigger) (e : Expr) :
    IsTrue I old ρ (.quant .all ((x, s) :: bs) ts e) ↔
      ∀ v : Val, v.sort = s → IsTrue I old (Function.update ρ x v) (.quant .all bs ts e) := by
  simp only [isTrue_quant_all]
  constructor
  · intro h v hv ρ' hρ'
    exact h ρ' (Model.assigns_cons.2 ⟨v, hv, hρ'⟩)
  · intro h ρ' hρ'
    obtain ⟨v, hv, hρ'⟩ := Model.assigns_cons.1 hρ'
    exact h v hv ρ' hρ'

theorem isTrue_ex_one (x : String) (s : Srt) (ts : List Trigger) (e : Expr) :
    IsTrue I old ρ (.quant .ex [(x, s)] ts e) ↔
      ∃ v : Val, v.sort = s ∧ IsTrue I old (Function.update ρ x v) e := by
  rw [isTrue_quant_ex]
  constructor
  · rintro ⟨ρ', hρ', he⟩
    obtain ⟨v, hv, hρ'⟩ := Model.assigns_cons.1 hρ'
    exact ⟨v, hv, Model.assigns_nil.1 hρ' ▸ he⟩
  · rintro ⟨v, hv, he⟩
    exact ⟨_, Model.assigns_cons.2 ⟨v, hv, Model.assigns_nil.2 rfl⟩, he⟩

end

end ContractLowering.Standard
