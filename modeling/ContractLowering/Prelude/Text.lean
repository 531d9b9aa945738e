/-!
# The standard prelude

The text every lowered program starts from: the sorts of heaps, references, boxes and
collections, the functions on them, and the facts that tie these together. Names fixed by this
text are listed in `Prelude.Names`.
-/

namespace ContractLowering.Prelude

/-- The sorts and the global names. -/
def sortText : String := "
(declare-sort Heap)
(declare-sort Ref)
(declare-sort Box)
(declare-sort Field)
(declare-sort ClassName)
(declare-sort DatatypeType)
(declare-sort DtCtorId)
(declare-sort Set)
(declare-sort MultiSet)
(declare-sort Seq)
(declare-sort Map)

(declare-var $Heap Heap)
(declare-const null Ref)
(declare-unique-const alloc Field)
"

/-- Functions on heaps, objects and fields. -/
def heapText : String := "
(declare-fun read (Heap Ref Field) Box)
(declare-fun update (Heap Ref Field Box) Heap)
(declare-fun $IsGoodHeap (Heap) Bool)
(declare-fun $HeapSucc (Heap Heap) Bool)
(declare-fun dtype (Ref) ClassName)
(declare-fun FDim (Field) Int)
(declare-fun DeclType (Field) ClassName)
(declare-fun IndexField (Int) Field)
(declare-fun IndexField.inv (Field) Int)
(declare-fun array.Length (Ref) Int)
"

/-- The box and unbox function of every native sort. -/
def boxText : String := "
(declare-fun $Box.bool (Bool) Box)
(declare-fun $Unbox.bool (Box) Bool)
(declare-fun $Box.int (Int) Box)
(declare-fun $Unbox.int (Box) Int)
(declare-fun $Box.ref (Ref) Box)
(declare-fun $Unbox.ref (Box) Ref)
(declare-fun $Box.dt (DatatypeType) Box)
(declare-fun $Unbox.dt (Box) DatatypeType)
(declare-fun $Box.set (Set) Box)
(declare-fun $Unbox.set (Box) Set)
(declare-fun $Box.multiset (MultiSet) Box)
(declare-fun $Unbox.multiset (Box) MultiSet)
(declare-fun $Box.seq (Seq) Box)
(declare-fun $Unbox.seq (Box) Seq)
(declare-fun $Box.map (Map) Box)
(declare-fun $Unbox.map (Box) Map)
"

/-- Boxes hold what was put in, and the boxes of one sort are told from others. -/
def boxFactText : String := "
(axiom (forall ((x Bool)) (! (= ($Unbox.bool ($Box.bool x)) x) :pattern (($Box.bool x)))))
(axiom (forall ((x Int)) (! (= ($Unbox.int ($Box.int x)) x) :pattern (($Box.int x)))))
(axiom (forall ((x Ref)) (! (= ($Unbox.ref ($Box.ref x)) x) :pattern (($Box.ref x)))))
(axiom (forall ((x DatatypeType)) (! (= ($Unbox.dt ($Box.dt x)) x) :pattern (($Box.dt x)))))
(axiom (forall ((x Set)) (! (= ($Unbox.set ($Box.set x)) x) :pattern (($Box.set x)))))
(axiom (forall ((x MultiSet)) (! (= ($Unbox.multiset ($Box.multiset x)) x) :pattern (($Box.multiset x)))))
(axiom (forall ((x Seq)) (! (= ($Unbox.seq ($Box.seq x)) x) :pattern (($Box.seq x)))))
(axiom (forall ((x Map)) (! (= ($Unbox.map ($Box.map x)) x) :pattern (($Box.map x)))))
(declare-fun $IsBox.bool (Box) Bool)
(declare-fun $IsBox.int (Box) Bool)
(declare-fun $IsBox.ref (Box) Bool)
(declare-fun $IsBox.dt (Box) Bool)
(declare-fun $IsBox.set (Box) Bool)
(declare-fun $IsBox.multiset (Box) Bool)
(declare-fun $IsBox.seq (Box) Bool)
(declare-fun $IsBox.map (Box) Bool)
(axiom (forall ((x Bool)) (! ($IsBox.bool ($Box.bool x)) :pattern (($Box.bool x)))))
(axiom (forall ((b Box)) (! (=> ($IsBox.bool b) (= ($Box.bool ($Unbox.bool b)) b)) :pattern (($Unbox.bool b)))))
(axiom (forall ((x Int)) (! ($IsBox.int ($Box.int x)) :pattern (($Box.int x)))))
(axiom (forall ((b Box)) (! (=> ($IsBox.int b) (= ($Box.int ($Unbox.int b)) b)) :pattern (($Unbox.int b)))))
(axiom (forall ((x Ref)) (! ($IsBox.ref ($Box.ref x)) :pattern (($Box.ref x)))))
(axiom (forall ((b Box)) (! (=> ($IsBox.ref b) (= ($Box.ref ($Unbox.ref b)) b)) :pattern (($Unbox.ref b)))))
(axiom (forall ((x DatatypeType)) (! ($IsBox.dt ($Box.dt x)) :pattern (($Box.dt x)))))
(axiom (forall ((b Box)) (! (=> ($IsBox.dt b) (= ($Box.dt ($Unbox.dt b)) b)) :pattern (($Unbox.dt b)))))
(axiom (forall ((x Set)) (! ($IsBox.set ($Box.set x)) :pattern (($Box.set x)))))
(axiom (forall ((b Box)) (! (=> ($IsBox.set b) (= ($Box.set ($Unbox.set b)) b)) :pattern (($Unbox.set b)))))
(axiom (forall ((x MultiSet)) (! ($IsBox.multiset ($Box.multiset x)) :pattern (($Box.multiset x)))))
(axiom (forall ((b Box)) (! (=> ($IsBox.multiset b) (= ($Box.multiset ($Unbox.multiset b)) b)) :pattern (($Unbox.multiset b)))))
(axiom (forall ((x Seq)) (! ($IsBox.seq ($Box.seq x)) :pattern (($Box.seq x)))))
(axiom (forall ((b Box)) (! (=> ($IsBox.seq b) (= ($Box.seq ($Unbox.seq b)) b)) :pattern (($Unbox.seq b)))))
(axiom (forall ((x Map)) (! ($IsBox.map ($Box.map x)) :pattern (($Box.map x)))))
(axiom (forall ((b Box)) (! (=> ($IsBox.map b) (= ($Box.map ($Unbox.map b)) b)) :pattern (($Unbox.map b)))))
"

/-- Heaps after updates, array elements as fields, and heaps that come later. -/
def heapFactText : String := "
(axiom (forall ((h Heap) (o Ref) (f Field) (v Box))
  (! (= (read (update h o f v) o f) v) :pattern ((update h o f v)))))
(axiom (forall ((h Heap) (o Ref) (f Field) (v Box) (p Ref) (g Field))
  (! (=> (or (not (= o p)) (not (= f g))) (= (read (update h o f v) p g) (read h p g)))
     :pattern ((read (update h o f v) p g)))))
(axiom (forall ((i Int)) (! (= (IndexField.inv (IndexField i)) i) :pattern ((IndexField i)))))
(axiom (forall ((i Int)) (! (= (FDim (IndexField i)) 1) :pattern ((IndexField i)))))
(axiom (= (FDim alloc) 0))
(axiom (forall ((h Heap) (k Heap))
  (! (=> ($HeapSucc h k)
         (forall ((o Ref)) (! (=> ($Unbox.bool (read h o alloc)) ($Unbox.bool (read k o alloc)))
                              :pattern ((read k o alloc)))))
     :pattern (($HeapSucc h k)))))
(axiom (forall ((h Heap) (o Ref) (f Field) (v Box))
  (! (=> ($IsGoodHeap (update h o f v)) ($HeapSucc h (update h o f v)))
     :pattern ((update h o f v)))))
"

/-- Values of datatypes and their ranks. -/
def datatypeText : String := "
(declare-fun DatatypeCtorId (DatatypeType) DtCtorId)
(declare-fun DtRank (DatatypeType) Int)
(declare-fun $IsAllocDt (DatatypeType Heap) Bool)
(axiom (forall ((d DatatypeType)) (! (<= 0 (DtRank d)) :pattern ((DtRank d)))))
"

/-- Sets of boxes. -/
def setText : String := "
(declare-const Set.Empty Set)
(declare-fun Set.mem (Set Box) Bool)
(declare-fun Set.UnionOne (Set Box) Set)
(declare-fun Set.Union (Set Set) Set)
(declare-fun Set.Intersection (Set Set) Set)
(declare-fun Set.Difference (Set Set) Set)
(declare-fun Set.Subset (Set Set) Bool)
(declare-fun Set.Equal (Set Set) Bool)
(declare-fun Set.Disjoint (Set Set) Bool)
(declare-fun Set.Card (Set) Int)
(declare-fun Set.FromPredicate (Lambda) Set)
(declare-fun $IsGoodSet (Set) Bool)
(axiom (forall ((b Box)) (! (not (Set.mem Set.Empty b)) :pattern ((Set.mem Set.Empty b)))))
(axiom (= (Set.Card Set.Empty) 0))
(axiom (forall ((s Set)) (! (<= 0 (Set.Card s)) :pattern ((Set.Card s)))))
(axiom (forall ((s Set) (a Box) (b Box))
  (! (= (Set.mem (Set.UnionOne s a) b) (or (= a b) (Set.mem s b)))
     :pattern ((Set.mem (Set.UnionOne s a) b)))))
(axiom (forall ((s Set) (t Set) (b Box))
  (! (= (Set.mem (Set.Union s t) b) (or (Set.mem s b) (Set.mem t b)))
     :pattern ((Set.mem (Set.Union s t) b)))))
(axiom (forall ((s Set) (t Set) (b Box))
  (! (= (Set.mem (Set.Intersection s t) b) (and (Set.mem s b) (Set.mem t b)))
     :pattern ((Set.mem (Set.Intersection s t) b)))))
(axiom (forall ((s Set) (t Set) (b Box))
  (! (= (Set.mem (Set.Difference s t) b) (and (Set.mem s b) (not (Set.mem t b))))
     :pattern ((Set.mem (Set.Difference s t) b)))))
(axiom (forall ((s Set) (t Set))
  (! (= (Set.Subset s t) (forall ((b Box)) (! (=> (Set.mem s b) (Set.mem t b)) :pattern ((Set.mem s b)) :pattern ((Set.mem t b)))))
     :pattern ((Set.Subset s t)))))
(axiom (forall ((s Set) (t Set))
  (! (= (Set.Equal s t) (forall ((b Box)) (! (= (Set.mem s b) (Set.mem t b)) :pattern ((Set.mem s b)) :pattern ((Set.mem t b)))))
     :pattern ((Set.Equal s t)))))
(axiom (forall ((s Set) (t Set)) (! (=> (Set.Equal s t) (= s t)) :pattern ((Set.Equal s t)))))
(axiom (forall ((s Set) (t Set))
  (! (= (Set.Disjoint s t) (forall ((b Box)) (! (or (not (Set.mem s b)) (not (Set.mem t b))) :pattern ((Set.mem s b)) :pattern ((Set.mem t b)))))
     :pattern ((Set.Disjoint s t)))))
(axiom (forall ((l Lambda) (b Box))
  (! (= (Set.mem (Set.FromPredicate l) b) (apply Bool l b))
     :pattern ((Set.mem (Set.FromPredicate l) b)))))
"

/-- Multisets of boxes. -/
def multisetText : String := "
(declare-const MultiSet.Empty MultiSet)
(declare-fun MultiSet.Multiplicity (MultiSet Box) Int)
(declare-fun MultiSet.UnionOne (MultiSet Box) MultiSet)
(declare-fun MultiSet.Union (MultiSet MultiSet) MultiSet)
(declare-fun MultiSet.Intersection (MultiSet MultiSet) MultiSet)
(declare-fun MultiSet.Difference (MultiSet MultiSet) MultiSet)
(declare-fun MultiSet.Subset (MultiSet MultiSet) Bool)
(declare-fun MultiSet.Equal (MultiSet MultiSet) Bool)
(declare-fun MultiSet.Disjoint (MultiSet MultiSet) Bool)
(declare-fun MultiSet.Card (MultiSet) Int)
(declare-fun $IsGoodMultiSet (MultiSet) Bool)
(axiom (forall ((m MultiSet) (b Box))
  (! (=> ($IsGoodMultiSet m) (<= 0 (MultiSet.Multiplicity m b)))
     :pattern (($IsGoodMultiSet m) (MultiSet.Multiplicity m b)))))
(axiom (forall ((b Box)) (! (= (MultiSet.Multiplicity MultiSet.Empty b) 0) :pattern ((MultiSet.Multiplicity MultiSet.Empty b)))))
(axiom (forall ((m MultiSet) (a Box) (b Box))
  (! (= (MultiSet.Multiplicity (MultiSet.UnionOne m a) b)
        (ite (= a b) (+ 1 (MultiSet.Multiplicity m b)) (MultiSet.Multiplicity m b)))
     :pattern ((MultiSet.Multiplicity (MultiSet.UnionOne m a) b)))))
(axiom (forall ((m MultiSet) (n MultiSet) (b Box))
  (! (= (MultiSet.Multiplicity (MultiSet.Union m n) b) (+ (MultiSet.Multiplicity m b) (MultiSet.Multiplicity n b)))
     :pattern ((MultiSet.Multiplicity (MultiSet.Union m n) b)))))
(axiom (forall ((m MultiSet)) (! (<= 0 (MultiSet.Card m)) :pattern ((MultiSet.Card m)))))
(axiom (forall ((m MultiSet) (n MultiSet))
  (! (= (MultiSet.Equal m n) (forall ((b Box)) (= (MultiSet.Multiplicity m b) (MultiSet.Multiplicity n b))))
     :pattern ((MultiSet.Equal m n)))))
(axiom (forall ((m MultiSet) (n MultiSet))
  (! (= (MultiSet.Subset m n) (forall ((b Box)) (<= (MultiSet.Multiplicity m b) (MultiSet.Multiplicity n b))))
     :pattern ((MultiSet.Subset m n)))))
"

/-- Sequences of boxes. -/
def seqText : String := "
(declare-const Seq.Empty Seq)
(declare-fun Seq.Length (Seq) Int)
(declare-fun Seq.Index (Seq Int) Box)
(declare-fun Seq.Build (Seq Box) Seq)
(declare-fun Seq.Append (Seq Seq) Seq)
(declare-fun Seq.Update (Seq Int Box) Seq)
(declare-fun Seq.Take (Seq Int) Seq)
(declare-fun Seq.Drop (Seq Int) Seq)
(declare-fun Seq.Equal (Seq Seq) Bool)
(declare-fun Seq.SameUntil (Seq Seq Int) Bool)
(declare-fun Seq.Contains (Seq Box) Bool)
(declare-fun Seq.FromArray (Heap Ref) Seq)
(axiom (forall ((s Seq)) (! (<= 0 (Seq.Length s)) :pattern ((Seq.Length s)))))
(axiom (= (Seq.Length Seq.Empty) 0))
(axiom (forall ((s Seq) (v Box))
  (! (= (Seq.Length (Seq.Build s v)) (+ 1 (Seq.Length s))) :pattern ((Seq.Build s v)))))
(axiom (forall ((s Seq) (i Int) (v Box))
  (! (and (=> (= i (Seq.Length s)) (= (Seq.Index (Seq.Build s v) i) v))
          (=> (not (= i (Seq.Length s))) (= (Seq.Index (Seq.Build s v) i) (Seq.Index s i))))
     :pattern ((Seq.Index (Seq.Build s v) i)))))
(axiom (forall ((s Seq) (t Seq))
  (! (= (Seq.Length (Seq.Append s t)) (+ (Seq.Length s) (Seq.Length t))) :pattern ((Seq.Length (Seq.Append s t))))))
(axiom (forall ((s Seq) (t Seq) (i Int))
  (! (and (=> (< i (Seq.Length s)) (= (Seq.Index (Seq.Append s t) i) (Seq.Index s i)))
          (=> (<= (Seq.Length s) i) (= (Seq.Index (Seq.Append s t) i) (Seq.Index t (- i (Seq.Length s))))))
     :pattern ((Seq.Index (Seq.Append s t) i)))))
(axiom (forall ((s Seq) (i Int) (v Box))
  (! (=> (and (<= 0 i) (< i (Seq.Length s))) (= (Seq.Length (Seq.Update s i v)) (Seq.Length s)))
     :pattern ((Seq.Length (Seq.Update s i v))))))
(axiom (forall ((s Seq) (i Int) (v Box) (j Int))
  (! (=> (and (<= 0 j) (< j (Seq.Length s)))
         (and (=> (= i j) (= (Seq.Index (Seq.Update s i v) j) v))
              (=> (not (= i j)) (= (Seq.Index (Seq.Update s i v) j) (Seq.Index s j)))))
     :pattern ((Seq.Index (Seq.Update s i v) j)))))
(axiom (forall ((s Seq) (n Int))
  (! (=> (and (<= 0 n) (<= n (Seq.Length s))) (= (Seq.Length (Seq.Take s n)) n))
     :pattern ((Seq.Length (Seq.Take s n))))))
(axiom (forall ((s Seq) (n Int) (j Int))
  (! (=> (and (<= 0 j) (< j n) (< j (Seq.Length s))) (= (Seq.Index (Seq.Take s n) j) (Seq.Index s j)))
     :pattern ((Seq.Index (Seq.Take s n) j)))))
(axiom (forall ((s Seq) (n Int))
  (! (=> (and (<= 0 n) (<= n (Seq.Length s))) (= (Seq.Length (Seq.Drop s n)) (- (Seq.Length s) n)))
     :pattern ((Seq.Length (Seq.Drop s n))))))
(axiom (forall ((s Seq) (n Int) (j Int))
  (! (=> (and (<= 0 n) (<= 0 j) (< j (- (Seq.Length s) n))) (= (Seq.Index (Seq.Drop s n) j) (Seq.Index s (+ j n))))
     :pattern ((Seq.Index (Seq.Drop s n) j)))))
(axiom (forall ((s Seq) (t Seq))
  (! (= (Seq.Equal s t)
        (and (= (Seq.Length s) (Seq.Length t))
             (forall ((j Int)) (! (=> (and (<= 0 j) (< j (Seq.Length s))) (= (Seq.Index s j) (Seq.Index t j)))
                                  :pattern ((Seq.Index s j)) :pattern ((Seq.Index t j))))))
     :pattern ((Seq.Equal s t)))))
(axiom (forall ((s Seq) (t Seq)) (! (=> (Seq.Equal s t) (= s t)) :pattern ((Seq.Equal s t)))))
(axiom (forall ((s Seq) (t Seq) (n Int))
  (! (= (Seq.SameUntil s t n)
        (forall ((j Int)) (! (=> (and (<= 0 j) (< j n)) (= (Seq.Index s j) (Seq.Index t j)))
                             :pattern ((Seq.Index s j)) :pattern ((Seq.Index t j)))))
     :pattern ((Seq.SameUntil s t n)))))
(axiom (forall ((s Seq) (v Box))
  (! (= (Seq.Contains s v) (exists ((j Int)) (and (<= 0 j) (< j (Seq.Length s)) (= (Seq.Index s j) v))))
     :pattern ((Seq.Contains s v)))))
(axiom (forall ((h Heap) (a Ref))
  (! (= (Seq.Length (Seq.FromArray h a)) (array.Length a)) :pattern ((Seq.Length (Seq.FromArray h a))))))
(axiom (forall ((h Heap) (a Ref) (j Int))
  (! (=> (and (<= 0 j) (< j (array.Length a))) (= (Seq.Index (Seq.FromArray h a) j) (read h a (IndexField j))))
     :pattern ((Seq.Index (Seq.FromArray h a) j)))))
"

/-- Maps from boxes to boxes. -/
def mapText : String := "
(declare-const Map.Empty Map)
(declare-fun Map.Domain (Map) Set)
(declare-fun Map.Elements (Map Box) Box)
(declare-fun Map.Build (Map Box Box) Map)
(declare-fun Map.Card (Map) Int)
(declare-fun Map.Equal (Map Map) Bool)
(declare-fun Map.Glue (Set Lambda) Map)
(axiom (= (Map.Domain Map.Empty) Set.Empty))
(axiom (forall ((m Map)) (! (<= 0 (Map.Card m)) :pattern ((Map.Card m)))))
(axiom (forall ((m Map) (k Box) (v Box) (b Box))
  (! (= (Set.mem (Map.Domain (Map.Build m k v)) b) (or (= k b) (Set.mem (Map.Domain m) b)))
     :pattern ((Set.mem (Map.Domain (Map.Build m k v)) b)))))
(axiom (forall ((m Map) (k Box) (v Box) (b Box))
  (! (and (=> (= k b) (= (Map.Elements (Map.Build m k v) b) v))
          (=> (not (= k b)) (= (Map.Elements (Map.Build m k v) b) (Map.Elements m b))))
     :pattern ((Map.Elements (Map.Build m k v) b)))))
(axiom (forall ((s Set) (l Lambda)) (! (= (Map.Domain (Map.Glue s l)) s) :pattern ((Map.Glue s l)))))
(axiom (forall ((s Set) (l Lambda) (b Box))
  (! (=> (Set.mem s b) (= (Map.Elements (Map.Glue s l) b) (apply Box l b)))
     :pattern ((Map.Elements (Map.Glue s l) b)))))
(axiom (forall ((m Map) (n Map))
  (! (= (Map.Equal m n)
        (and (Set.Equal (Map.Domain m) (Map.Domain n))
             (forall ((b Box)) (=> (Set.mem (Map.Domain m) b) (= (Map.Elements m b) (Map.Elements n b))))))
     :pattern ((Map.Equal m n)))))
(axiom (forall ((m Map) (n Map)) (! (=> (Map.Equal m n) (= m n)) :pattern ((Map.Equal m n)))))
"

/-- The text of the standard prelude. -/
def standardText : String :=
  sortText ++ heapText ++ boxText ++ boxFactText ++ heapFactText ++ datatypeText ++ setText
    ++ multisetText ++ seqText ++ mapText

end ContractLowering.Prelude
