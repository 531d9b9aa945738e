import ContractLowering.IL.Build

/-!
# The names a prelude fixes

Lowered programs mention the sorts, constants and functions below. `required` lists each with
what it has to be declared as, in the order in which a prelude is examined.
-/

namespace ContractLowering.Prelude

open IL

/-! ## Sorts -/

def heapSort : Srt := .named "Heap"
def refSort : Srt := .named "Ref"
def boxSort : Srt := .named "Box"
def fieldSort : Srt := .named "Field"
def classNameSort : Srt := .named "ClassName"
def datatypeSort : Srt := .named "DatatypeType"
def ctorIdSort : Srt := .named "DtCtorId"
def setSort : Srt := .named "Set"
def multisetSort : Srt := .named "MultiSet"
def seqSort : Srt := .named "Seq"
def mapSort : Srt := .named "Map"

/-! ## Variables and constants -/

/-- The global variable that holds the current heap. -/
def heapName : String := "$Heap"

def heapVar : Expr := .var heapName
def null : Expr := .var "null"
def alloc : Expr := .var "alloc"
def setEmpty : Expr := .var "Set.Empty"
def multisetEmpty : Expr := .var "MultiSet.Empty"
def seqEmpty : Expr := .var "Seq.Empty"
def mapEmpty : Expr := .var "Map.Empty"

/-! ## Heaps, references and datatypes -/

/-- The boxed value of a field of an object in a heap. -/
def read (h o f : Expr) : Expr := .app "read" [h, o, f]

/-- The heap with one location replaced by a boxed value. -/
def update (h o f v : Expr) : Expr := .app "update" [h, o, f, v]

def isGoodHeap (h : Expr) : Expr := .app "$IsGoodHeap" [h]
def heapSucc (h k : Expr) : Expr := .app "$HeapSucc" [h, k]
def dtype (o : Expr) : Expr := .app "dtype" [o]
def fieldDim (f : Expr) : Expr := .app "FDim" [f]
def declType (f : Expr) : Expr := .app "DeclType" [f]
def indexField (i : Expr) : Expr := .app "IndexField" [i]
def indexFieldInv (f : Expr) : Expr := .app "IndexField.inv" [f]
def arrayLength (a : Expr) : Expr := .app "array.Length" [a]
def datatypeCtorId (d : Expr) : Expr := .app "DatatypeCtorId" [d]
def dtRank (d : Expr) : Expr := .app "DtRank" [d]
def isAllocDt (d h : Expr) : Expr := .app "$IsAllocDt" [d, h]

/-! ## Sets and multisets -/

def setMem (s b : Expr) : Expr := .app "Set.mem" [s, b]
def setUnionOne (s b : Expr) : Expr := .app "Set.UnionOne" [s, b]
def setUnion (s t : Expr) : Expr := .app "Set.Union" [s, t]
def setIntersection (s t : Expr) : Expr := .app "Set.Intersection" [s, t]
def setDifference (s t : Expr) : Expr := .app "Set.Difference" [s, t]
def setSubset (s t : Expr) : Expr := .app "Set.Subset" [s, t]
def setEqual (s t : Expr) : Expr := .app "Set.Equal" [s, t]
def setDisjoint (s t : Expr) : Expr := .app "Set.Disjoint" [s, t]
def setCard (s : Expr) : Expr := .app "Set.Card" [s]
def setFromPredicate (p : Expr) : Expr := .app "Set.FromPredicate" [p]
def isGoodSet (s : Expr) : Expr := .app "$IsGoodSet" [s]
def multiplicity (m b : Expr) : Expr := .app "MultiSet.Multiplicity" [m, b]
def multisetUnionOne (m b : Expr) : Expr := .app "MultiSet.UnionOne" [m, b]
def multisetUnion (m n : Expr) : Expr := .app "MultiSet.Union" [m, n]
def multisetIntersection (m n : Expr) : Expr := .app "MultiSet.Intersection" [m, n]
def multisetDifference (m n : Expr) : Expr := .app "MultiSet.Difference" [m, n]
def multisetSubset (m n : Expr) : Expr := .app "MultiSet.Subset" [m, n]
def multisetEqual (m n : Expr) : Expr := .app "MultiSet.Equal" [m, n]
def multisetDisjoint (m n : Expr) : Expr := .app "MultiSet.Disjoint" [m, n]
def multisetCard (m : Expr) : Expr := .app "MultiSet.Card" [m]
def isGoodMultiset (m : Expr) : Expr := .app "$IsGoodMultiSet" [m]

/-! ## Sequences and maps -/

def seqLength (s : Expr) : Expr := .app "Seq.Length" [s]
def seqIndex (s i : Expr) : Expr := .app "Seq.Index" [s, i]
def seqBuild (s b : Expr) : Expr := .app "Seq.Build" [s, b]
def seqAppend (s t : Expr) : Expr := .app "Seq.Append" [s, t]
def seqUpdate (s i b : Expr) : Expr := .app "Seq.Update" [s, i, b]
def seqTake (s n : Expr) : Expr := .app "Seq.Take" [s, n]
def seqDrop (s n : Expr) : Expr := .app "Seq.Drop" [s, n]
def seqEqual (s t : Expr) : Expr := .app "Seq.Equal" [s, t]
def seqSameUntil (s t n : Expr) : Expr := .app "Seq.SameUntil" [s, t, n]
def seqContains (s b : Expr) : Expr := .app "Seq.Contains" [s, b]
def seqFromArray (h a : Expr) : Expr := .app "Seq.FromArray" [h, a]
def mapDomain (m : Expr) : Expr := .app "Map.Domain" [m]
def mapElements (m k : Expr) : Expr := .app "Map.Elements" [m, k]
def mapBuild (m k v : Expr) : Expr := .app "Map.Build" [m, k, v]
def mapCard (m : Expr) : Expr := .app "Map.Card" [m]
def mapEqual (m n : Expr) : Expr := .app "Map.Equal" [m, n]
def mapGlue (s l : Expr) : Expr := .app "Map.Glue" [s, l]

/-! ## Boxes -/

/-- The native sorts that have a box and an unbox function. -/
inductive BoxSort where
  | bool
  | int
  | ref
  | datatype
  | set
  | multiset
  | seq
  | map
deriving DecidableEq, Inhabited

namespace BoxSort

/-- All native sorts, in the order a prelude is examined. -/
def all : List BoxSort := [.bool, .int, .ref, .datatype, .set, .multiset, .seq, .map]

/-- The last part of the names that belong to a native sort. -/
def suffix : BoxSort → String
  | .bool => "bool"
  | .int => "int"
  | .ref => "ref"
  | .datatype => "dt"
  | .set => "set"
  | .multiset => "multiset"
  | .seq => "seq"
  | .map => "map"

/-- The function that boxes a value of the sort. -/
def boxName (s : BoxSort) : String := "$Box." ++ s.suffix

/-- The function that unboxes a value of the sort. -/
def unboxName (s : BoxSort) : String := "$Unbox." ++ s.suffix

/-- The predicate that holds of exactly the boxes of the sort. -/
def isBoxName (s : BoxSort) : String := "$IsBox." ++ s.suffix

/-- The native sort whose box function has this name. -/
def ofBoxName? (f : String) : Option BoxSort := all.find? fun s => s.boxName == f

/-- The native sort whose unbox function has this name. -/
def ofUnboxName? (f : String) : Option BoxSort := all.find? fun s => s.unboxName == f

end BoxSort

/-! ## Required declarations -/

/-- What a prelude declares a name as. -/
inductive Kind where
  | sort
  | const
  | var
  | func (arity : Nat)
deriving DecidableEq, Inhabited

/-- The word for a kind. -/
def Kind.word : Kind → String
  | .sort => "Sort"
  | .const => "Const"
  | .var => "Var"
  | .func n => "Fun(" ++ toString n ++ ")"

/-- The functions a prelude has to declare, boxing apart, with their numbers of arguments. -/
def requiredFunctions : List (String × Nat) :=
  [("read", 3), ("update", 4), ("$IsGoodHeap", 1), ("$HeapSucc", 2), ("dtype", 1), ("FDim", 1),
   ("DeclType", 1), ("IndexField", 1), ("IndexField.inv", 1), ("array.Length", 1),
   ("DatatypeCtorId", 1), ("DtRank", 1), ("$IsAllocDt", 2),
   ("Set.mem", 2), ("Set.UnionOne", 2), ("Set.Union", 2), ("Set.Intersection", 2),
   ("Set.Difference", 2), ("Set.Subset", 2), ("Set.Equal", 2), ("Set.Disjoint", 2),
   ("Set.Card", 1), ("Set.FromPredicate", 1), ("$IsGoodSet", 1),
   ("MultiSet.Multiplicity", 2), ("MultiSet.UnionOne", 2), ("MultiSet.Union", 2),
   ("MultiSet.Intersection", 2), ("MultiSet.Difference", 2), ("MultiSet.Subset", 2),
   ("MultiSet.Equal", 2), ("MultiSet.Disjoint", 2), ("MultiSet.Card", 1),
   ("$IsGoodMultiSet", 1),
   ("Seq.Length", 1), ("Seq.Index", 2), ("Seq.Build", 2), ("Seq.Append", 2), ("Seq.Update", 3),
   ("Seq.Take", 2), ("Seq.Drop", 2), ("Seq.Equal", 2), ("Seq.SameUntil", 3),
   ("Seq.Contains", 2), ("Seq.FromArray", 2),
   ("Map.Domain", 1), ("Map.Elements", 2), ("Map.Build", 3), ("Map.Card", 1), ("Map.Equal", 2),
   ("Map.Glue", 2)]

/-- Every name a prelude has to declare, with its kind, in the order they are examined. -/
def required : List (String × Kind) :=
  ["Heap", "Ref", "Box", "Field", "ClassName", "DatatypeType", "DtCtorId", "Set", "MultiSet",
    "Seq", "Map"].map (·, Kind.sort)
  ++ ["null", "alloc", "Set.Empty", "MultiSet.Empty", "Seq.Empty", "Map.Empty"].map (·, Kind.const)
  ++ requiredFunctions.map (fun f => (f.1, Kind.func f.2))
  ++ BoxSort.all.flatMap (fun s =>
      [(s.boxName, Kind.func 1), (s.unboxName, Kind.func 1), (s.isBoxName, Kind.func 1)])
  ++ [(heapName, Kind.var)]

end ContractLowering.Prelude
