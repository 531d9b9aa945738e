import ContractLowering.Proofs.Standard.Model
import ContractLowering.Proofs.IL.Erasure

/-!
# The facts of the prelude

The lists below hold the facts of the standard prelude, section by section and without triggers,
and every one of them is true in the standard model (`isTrue_facts`), whatever declarations add.
-/

namespace ContractLowering.Standard

open IL Prelude

/-- A function of the prelude applied to expressions. -/
def Op.on (op : Op) (args : List Expr) : Expr := .app op.name args

/-- A statement about all values of some sorts. -/
def forAll (bs : List Binder) (e : Expr) : Expr := .quant .all bs [] e

/-- An implication as it is written. -/
def given (a b : Expr) : Expr := .binary .implies a b

namespace Facts

open Op

/-- Boxes hold what was put in, and the boxes of one sort are told from others. -/
def boxes : List Expr :=
  let x := Expr.var "x"
  let b := Expr.var "b"
  BoxSort.all.map (fun s => forAll [("x", s.sort)] (.eq ((unbox s).on [(box s).on [x]]) x))
  ++ BoxSort.all.flatMap fun s =>
    [forAll [("x", s.sort)] ((isBox s).on [(box s).on [x]]),
     forAll [("b", boxSort)] (given ((isBox s).on [b]) (.eq ((box s).on [(unbox s).on [b]]) b))]

/-- Heaps after updates, array elements as fields, and heaps that come later. -/
def heaps : List Expr :=
  let h := Expr.var "h"
  let k := Expr.var "k"
  let o := Expr.var "o"
  let f := Expr.var "f"
  let v := Expr.var "v"
  let p := Expr.var "p"
  let g := Expr.var "g"
  let i := Expr.var "i"
  let alloc := Expr.var "alloc"
  let updated := update.on [h, o, f, v]
  let location := [("h", heapSort), ("o", refSort), ("f", fieldSort), ("v", boxSort)]
  let allocated := fun heap => (unbox .bool).on [read.on [heap, o, alloc]]
  [forAll location (.eq (read.on [updated, o, f]) v),
   forAll (location ++ [("p", refSort), ("g", fieldSort)])
     (given (.multi .or [.not (.eq o p), .not (.eq f g)])
       (.eq (read.on [updated, p, g]) (read.on [h, p, g]))),
   forAll [("i", .int)] (.eq (indexFieldInv.on [indexField.on [i]]) i),
   forAll [("i", .int)] (.eq (fieldDim.on [indexField.on [i]]) (.num "1")),
   .eq (fieldDim.on [alloc]) (.num "0"),
   forAll [("h", heapSort), ("k", heapSort)] (given (heapSucc.on [h, k])
     (forAll [("o", refSort)] (given (allocated h) (allocated k)))),
   forAll location (given (isGoodHeap.on [updated]) (heapSucc.on [h, updated]))]

/-- Ranks of values of datatypes. -/
def datatypes : List Expr :=
  [forAll [("d", datatypeSort)] (.le (.num "0") (dtRank.on [.var "d"]))]

/-- Sets of boxes. -/
def sets : List Expr :=
  let s := Expr.var "s"
  let t := Expr.var "t"
  let a := Expr.var "a"
  let b := Expr.var "b"
  let l := Expr.var "l"
  let empty := Expr.var "Set.Empty"
  let two := [("s", setSort), ("t", setSort)]
  let mem := fun set => setMem.on [set, b]
  [forAll [("b", boxSort)] (.not (mem empty)),
   .eq (setCard.on [empty]) (.num "0"),
   forAll [("s", setSort)] (.le (.num "0") (setCard.on [s])),
   forAll [("s", setSort), ("a", boxSort), ("b", boxSort)]
     (.eq (mem (setUnionOne.on [s, a])) (.multi .or [.eq a b, mem s])),
   forAll (two ++ [("b", boxSort)]) (.eq (mem (setUnion.on [s, t])) (.multi .or [mem s, mem t])),
   forAll (two ++ [("b", boxSort)])
     (.eq (mem (setIntersection.on [s, t])) (.multi .and [mem s, mem t])),
   forAll (two ++ [("b", boxSort)])
     (.eq (mem (setDifference.on [s, t])) (.multi .and [mem s, .not (mem t)])),
   forAll two (.eq (setSubset.on [s, t]) (forAll [("b", boxSort)] (given (mem s) (mem t)))),
   forAll two (.eq (setEqual.on [s, t]) (forAll [("b", boxSort)] (.eq (mem s) (mem t)))),
   forAll two (given (setEqual.on [s, t]) (.eq s t)),
   forAll two (.eq (setDisjoint.on [s, t])
     (forAll [("b", boxSort)] (.multi .or [.not (mem s), .not (mem t)]))),
   forAll [("l", .lambda), ("b", boxSort)]
     (.eq (mem (setFromPredicate.on [l])) (.applyLambda .bool l [b]))]

/-- Multisets of boxes. -/
def multisets : List Expr :=
  let m := Expr.var "m"
  let n := Expr.var "n"
  let a := Expr.var "a"
  let b := Expr.var "b"
  let two := [("m", multisetSort), ("n", multisetSort)]
  let count := fun multiset => multiplicity.on [multiset, b]
  [forAll [("m", multisetSort), ("b", boxSort)]
     (given (isGoodMultiset.on [m]) (.le (.num "0") (count m))),
   forAll [("b", boxSort)] (.eq (count (.var "MultiSet.Empty")) (.num "0")),
   forAll [("m", multisetSort), ("a", boxSort), ("b", boxSort)]
     (.eq (count (multisetUnionOne.on [m, a]))
       (.ite (.eq a b) (.multi .add [.num "1", count m]) (count m))),
   forAll (two ++ [("b", boxSort)])
     (.eq (count (multisetUnion.on [m, n])) (.multi .add [count m, count n])),
   forAll [("m", multisetSort)] (.le (.num "0") (multisetCard.on [m])),
   forAll two (.eq (multisetEqual.on [m, n]) (forAll [("b", boxSort)] (.eq (count m) (count n)))),
   forAll two (.eq (multisetSubset.on [m, n]) (forAll [("b", boxSort)] (.le (count m) (count n))))]

/-- Sequences of boxes. -/
def seqs : List Expr :=
  let s := Expr.var "s"
  let t := Expr.var "t"
  let i := Expr.var "i"
  let j := Expr.var "j"
  let n := Expr.var "n"
  let v := Expr.var "v"
  let h := Expr.var "h"
  let a := Expr.var "a"
  let zero := Expr.num "0"
  let len := fun seq => seqLength.on [seq]
  let at' := fun seq index => seqIndex.on [seq, index]
  let two := [("s", seqSort), ("t", seqSort)]
  let inRange := fun seq => Expr.multi .and [.le zero j, .lt j (len seq)]
  [forAll [("s", seqSort)] (.le zero (len s)),
   .eq (len (.var "Seq.Empty")) zero,
   forAll [("s", seqSort), ("v", boxSort)]
     (.eq (len (seqBuild.on [s, v])) (.multi .add [.num "1", len s])),
   forAll [("s", seqSort), ("i", .int), ("v", boxSort)] (.multi .and
     [given (.eq i (len s)) (.eq (at' (seqBuild.on [s, v]) i) v),
      given (.not (.eq i (len s))) (.eq (at' (seqBuild.on [s, v]) i) (at' s i))]),
   forAll two (.eq (len (seqAppend.on [s, t])) (.multi .add [len s, len t])),
   forAll (two ++ [("i", .int)]) (.multi .and
     [given (.lt i (len s)) (.eq (at' (seqAppend.on [s, t]) i) (at' s i)),
      given (.le (len s) i) (.eq (at' (seqAppend.on [s, t]) i) (at' t (.multi .sub [i, len s])))]),
   forAll [("s", seqSort), ("i", .int), ("v", boxSort)]
     (given (.multi .and [.le zero i, .lt i (len s)])
       (.eq (len (seqUpdate.on [s, i, v])) (len s))),
   forAll [("s", seqSort), ("i", .int), ("v", boxSort), ("j", .int)]
     (given (inRange s) (.multi .and
       [given (.eq i j) (.eq (at' (seqUpdate.on [s, i, v]) j) v),
        given (.not (.eq i j)) (.eq (at' (seqUpdate.on [s, i, v]) j) (at' s j))])),
   forAll [("s", seqSort), ("n", .int)]
     (given (.multi .and [.le zero n, .le n (len s)]) (.eq (len (seqTake.on [s, n])) n)),
   forAll [("s", seqSort), ("n", .int), ("j", .int)]
     (given (.multi .and [.le zero j, .lt j n, .lt j (len s)])
       (.eq (at' (seqTake.on [s, n]) j) (at' s j))),
   forAll [("s", seqSort), ("n", .int)]
     (given (.multi .and [.le zero n, .le n (len s)])
       (.eq (len (seqDrop.on [s, n])) (.multi .sub [len s, n]))),
   forAll [("s", seqSort), ("n", .int), ("j", .int)]
     (given (.multi .and [.le zero n, .le zero j, .lt j (.multi .sub [len s, n])])
       (.eq (at' (seqDrop.on [s, n]) j) (at' s (.multi .add [j, n])))),
   forAll two (.eq (seqEqual.on [s, t]) (.multi .and [.eq (len s) (len t),
     forAll [("j", .int)] (given (inRange s) (.eq (at' s j) (at' t j)))])),
   forAll two (given (seqEqual.on [s, t]) (.eq s t)),
   forAll (two ++ [("n", .int)]) (.eq (seqSameUntil.on [s, t, n])
     (forAll [("j", .int)] (given (.multi .and [.le zero j, .lt j n]) (.eq (at' s j) (at' t j))))),
   forAll [("s", seqSort), ("v", boxSort)] (.eq (seqContains.on [s, v])
     (.quant .ex [("j", .int)] [] (.multi .and [.le zero j, .lt j (len s), .eq (at' s j) v]))),
   forAll [("h", heapSort), ("a", refSort)]
     (.eq (len (seqFromArray.on [h, a])) (arrayLength.on [a])),
   forAll [("h", heapSort), ("a", refSort), ("j", .int)]
     (given (.multi .and [.le zero j, .lt j (arrayLength.on [a])])
       (.eq (at' (seqFromArray.on [h, a]) j) (read.on [h, a, indexField.on [j]])))]

/-- Maps from boxes to boxes. -/
def maps : List Expr :=
  let m := Expr.var "m"
  let n := Expr.var "n"
  let k := Expr.var "k"
  let v := Expr.var "v"
  let b := Expr.var "b"
  let s := Expr.var "s"
  let l := Expr.var "l"
  let domain := fun map => mapDomain.on [map]
  let at' := fun map => mapElements.on [map, b]
  let entry := [("m", mapSort), ("k", boxSort), ("v", boxSort), ("b", boxSort)]
  let two := [("m", mapSort), ("n", mapSort)]
  [.eq (domain (.var "Map.Empty")) (.var "Set.Empty"),
   forAll [("m", mapSort)] (.le (.num "0") (mapCard.on [m])),
   forAll entry (.eq (setMem.on [domain (mapBuild.on [m, k, v]), b])
     (.multi .or [.eq k b, setMem.on [domain m, b]])),
   forAll entry (.multi .and
     [given (.eq k b) (.eq (at' (mapBuild.on [m, k, v])) v),
      given (.not (.eq k b)) (.eq (at' (mapBuild.on [m, k, v])) (at' m))]),
   forAll [("s", setSort), ("l", .lambda)] (.eq (domain (mapGlue.on [s, l])) s),
   forAll [("s", setSort), ("l", .lambda), ("b", boxSort)]
     (given (setMem.on [s, b]) (.eq (at' (mapGlue.on [s, l])) (.applyLambda boxSort l [b]))),
   forAll two (.eq (mapEqual.on [m, n]) (.multi .and [setEqual.on [domain m, domain n],
     forAll [("b", boxSort)] (given (setMem.on [domain m, b]) (.eq (at' m) (at' n)))])),
   forAll two (given (mapEqual.on [m, n]) (.eq m n))]

end Facts

/-- The facts of the standard prelude. -/
def facts : List Expr :=
  Facts.boxes ++ Facts.heaps ++ Facts.datatypes ++ Facts.sets ++ Facts.multisets ++ Facts.seqs
    ++ Facts.maps

/-! ## Truth -/

section

variable {I : Interp} {old ρ : String → Val}

@[simp] theorem value_on (op : Op) (args : List Expr) :
    value I old ρ (op.on args) = op.eval I (args.map (value I old ρ)) := value_op op args

@[simp] theorem isTrue_on (op : Op) (args : List Expr) :
    IsTrue I old ρ (op.on args) ↔ op.eval I (args.map (value I old ρ)) = .bool true := by
  rw [isTrue_iff, value_on]

@[simp] theorem value_zero : value I old ρ (.num "0") = .int 0 := rfl

@[simp] theorem value_one : value I old ρ (.num "1") = .int 1 := rfl

@[simp] theorem element_natCast (l : List ℕ) (n : ℕ) : element l n = l.getD n 0 := by
  simp [element]

/-- Indices of elements are natural numbers. -/
theorem element_of_nonneg {l : List ℕ} {i : ℤ} (hi : 0 ≤ i) : element l i = l.getD i.toNat 0 := if_pos hi

theorem element_of_neg {l : List ℕ} {i : ℤ} (hi : i < 0) : element l i = 0 := if_neg (by omega)

/-- A new last element stands behind all others. -/
theorem element_append_singleton (l : List ℕ) (i : ℤ) (n : ℕ) :
    element (l ++ [n]) i = if i = l.length then n else element l i := by
  rcases lt_or_ge i 0 with hi | hi
  · rw [element_of_neg hi, element_of_neg hi, if_neg (by omega)]
  obtain ⟨p, rfl⟩ := Int.eq_ofNat_of_zero_le hi
  rw [element_natCast, element_natCast, List.getD_eq_getElem?_getD, List.getD_eq_getElem?_getD]
  split
  next h => simp [Int.ofNat_inj.mp h]
  next h =>
    rcases lt_or_ge p l.length with hp | hp
    · rw [List.getElem?_append_left hp]
    · rw [List.getElem?_eq_none hp, List.getElem?_eq_none]
      simp only [List.length_append, List.length_singleton]
      omega

theorem element_append_left {l k : List ℕ} {i : ℤ} (hi : i < l.length) : element (l ++ k) i = element l i := by
  rcases lt_or_ge i 0 with hneg | hpos
  · rw [element_of_neg hneg, element_of_neg hneg]
  rw [element_of_nonneg hpos, element_of_nonneg hpos, List.getD_append _ _ _ _ (by omega)]

theorem element_append_right {l k : List ℕ} {i : ℤ} (hi : l.length ≤ i) :
    element (l ++ k) i = element k (i - l.length) := by
  rw [element_of_nonneg (by omega), element_of_nonneg (by omega),
    List.getD_append_right _ _ _ _ (by omega)]
  congr 1
  omega

theorem length_replaced (l : List ℕ) (i : ℤ) (n : ℕ) : (replaced l i n).length = l.length := by
  unfold replaced
  split
  · exact List.length_set
  · rfl

/-- Only the element at the index is replaced. -/
theorem element_replaced {l : List ℕ} {i j : ℤ} (n : ℕ) (hj : 0 ≤ j) (hl : j < l.length) :
    element (replaced l i n) j = if i = j then n else element l j := by
  rw [element_of_nonneg hj, element_of_nonneg hj, List.getD_eq_getElem?_getD,
    List.getD_eq_getElem?_getD]
  unfold replaced
  split
  next hi =>
    rw [List.getElem?_set]
    rcases eq_or_ne i j with rfl | hij
    · rw [if_pos rfl, if_pos rfl, if_pos (by omega), Option.getD_some]
    · rw [if_neg (by omega), if_neg hij]
  next hi => rw [if_neg (by omega)]

theorem element_take {l : List ℕ} {j n : ℤ} (hj : 0 ≤ j) (hn : j < n) :
    element (l.take n.toNat) j = element l j := by
  rw [element_of_nonneg hj, element_of_nonneg hj, List.getD_eq_getElem?_getD,
    List.getD_eq_getElem?_getD, List.getElem?_take_of_lt (by omega)]

theorem element_drop {l : List ℕ} {j n : ℤ} (hj : 0 ≤ j) (hn : 0 ≤ n) :
    element (l.drop n.toNat) j = element l (j + n) := by
  rw [element_of_nonneg hj, element_of_nonneg (by omega), List.getD_eq_getElem?_getD,
    List.getD_eq_getElem?_getD, List.getElem?_drop]
  congr 2
  omega

theorem element_map_range {f : ℕ → ℕ} {n : ℕ} {j : ℤ} (hj : 0 ≤ j) (hn : j < n) :
    element ((List.range n).map f) j = f j.toNat := by
  have : j.toNat < n := by omega
  simp [element_of_nonneg hj, List.getD_eq_getElem?_getD, this]

/-- Sequences with the same elements are equal. -/
theorem eq_iff_element {l k : List ℕ} :
    l = k ↔ l.length = k.length ∧ ∀ i : ℤ, 0 ≤ i → i < l.length → element l i = element k i := by
  refine ⟨by rintro rfl; simp, fun ⟨hlength, h⟩ => List.ext_getElem hlength fun n hl hk => ?_⟩
  simpa [hl, hk] using h n (by simp) (by simpa using hl)

theorem mem_iff_element {l : List ℕ} {n : ℕ} :
    n ∈ l ↔ ∃ i : ℤ, 0 ≤ i ∧ i < l.length ∧ element l i = n := by
  rw [List.mem_iff_getElem]
  constructor
  · rintro ⟨k, hk, rfl⟩
    exact ⟨k, by simp, by simpa using hk, by simp [hk]⟩
  · rintro ⟨i, hi, hl, h⟩
    obtain ⟨k, rfl⟩ := Int.eq_ofNat_of_zero_le hi
    have hk : k < l.length := by simpa using hl
    exact ⟨k, hk, by simpa [hk] using h⟩

/-- Maps with the same keys and entries are equal. -/
theorem eq_iff_entries {m n : ℕ →₀ ℕ} :
    m = n ↔ m.support = n.support ∧ ∀ k, m k ≠ 0 → m k - 1 = n k - 1 := by
  refine ⟨by rintro rfl; simp, fun ⟨hsupport, h⟩ => Finsupp.ext fun k => ?_⟩
  have hk : m k ≠ 0 ↔ n k ≠ 0 := by
    rw [← Finsupp.mem_support_iff, hsupport, Finsupp.mem_support_iff]
  have := h k
  omega

-- a fact is unfolded to a statement about the values of its variables
attribute [local simp] forAll given isTrue_all_nil isTrue_all_cons isTrue_ex_one value_quant
  Function.update Op.eval Val.ofProp_eq_true Val.toBool Val.toInt Val.toStore Val.toRef
  Val.toBox Val.toFld Val.toData Val.toSet Val.toMultiset Val.toSeq Val.toMap

/-- Boxes hold what was put in. -/
theorem isTrue_boxes : ∀ e ∈ Facts.boxes, IsTrue I old ρ e := by
  simp only [Facts.boxes, List.forall_mem_append, List.forall_mem_map, List.forall_mem_flatMap,
    List.forall_mem_cons]
  refine ⟨fun s _ => ?_, fun s _ => ⟨?_, ?_, by simp⟩⟩
  · simpa using fun v hv => Val.unbox_toCode hv
  · simpa using fun v hv => by rw [Val.ofContent_content hv, hv]
  · simpa using fun n hn => Val.toCode_unbox hn

/-- Heaps are updated location by location. -/
theorem isTrue_heaps (halloc : ρ "alloc" = .field .alloc) :
    ∀ e ∈ Facts.heaps, IsTrue I old ρ e := by
  simp only [Facts.heaps, List.forall_mem_cons]
  refine ⟨?_, ?_, ?_, ?_, ?_, ?_, ?_, by simp⟩
  · simp [Store.set, Store.assign]
  · simpa [Store.set, Store.assign] using by grind
  · simp [Fld.toIndex]
  · simp [Fld.dim]
  · simp [halloc, Fld.alloc, Fld.dim]
  · simpa [halloc] using fun h k hbelow r => hbelow r
  · simpa using fun h r f n hintact _ => hintact.2

theorem isTrue_datatypes : ∀ e ∈ Facts.datatypes, IsTrue I old ρ e := by
  simp [Facts.datatypes]

/-- Sets are their members. -/
theorem isTrue_sets (hempty : ρ "Set.Empty" = .set ∅) : ∀ e ∈ Facts.sets, IsTrue I old ρ e := by
  simp only [Facts.sets, List.forall_mem_cons]
  refine ⟨?_, ?_, ?_, ?_, ?_, ?_, ?_, ?_, ?_, ?_, ?_, ?_, by simp⟩
  · simp [hempty]
  · simp [hempty]
  · simp
  · simpa using by grind
  · simp
  · simp
  · simp
  · simp [Finset.subset_iff]
  · simp [Finset.ext_iff]
  · simp
  · simpa [Finset.disjoint_left] using by grind
  · simp [Val.ofProp, Val.default]

/-- Multisets are the multiplicities of their members. -/
theorem isTrue_multisets (hempty : ρ "MultiSet.Empty" = .multiset 0) :
    ∀ e ∈ Facts.multisets, IsTrue I old ρ e := by
  simp only [Facts.multisets, List.forall_mem_cons]
  refine ⟨?_, ?_, ?_, ?_, ?_, ?_, ?_, by simp⟩
  · simp
  · simp [hempty]
  · simpa [Multiset.count_cons] using by grind
  · simp
  · simp
  · simp [Multiset.ext]
  · simp [Multiset.le_iff_count]

/-- Sequences are their elements. -/
theorem isTrue_seqs (hempty : ρ "Seq.Empty" = .seq []) : ∀ e ∈ Facts.seqs, IsTrue I old ρ e := by
  simp only [Facts.seqs, List.forall_mem_cons]
  refine ⟨?_, ?_, ?_, ?_, ?_, ?_, ?_, ?_, ?_, ?_, ?_, ?_, ?_, ?_, ?_, ?_, ?_, ?_, by simp⟩
  · simp
  · simp [hempty]
  · simp [add_comm]
  · simpa using fun l i n => ⟨fun h => by rw [element_append_singleton, if_pos h],
      fun h => by rw [element_append_singleton, if_neg h]⟩
  · simp
  · simpa using fun l k i => ⟨element_append_left, element_append_right⟩
  · simpa using fun l i n _ _ => length_replaced l i n
  · simpa using fun l i n j hj hl => ⟨fun h => by rw [element_replaced n hj hl, if_pos h],
      fun h => by rw [element_replaced n hj hl, if_neg h]⟩
  · simpa using fun l n hn hl => by rw [max_eq_left hn, min_eq_left hl]
  · simpa using fun l n j hj hn _ => element_take hj hn
  · simpa using by omega
  · simpa using fun l n j hn hj _ => element_drop hj hn
  · simp [eq_iff_element]
  · simp
  · simp
  · simp [mem_iff_element]
  · simp
  · simpa using fun h r j hj hn => by rw [element_map_range hj hn, Int.toNat_of_nonneg hj]

/-- Maps are their keys with what these are mapped to. -/
theorem isTrue_maps (hempty : ρ "Map.Empty" = .map 0) (hset : ρ "Set.Empty" = .set ∅) :
    ∀ e ∈ Facts.maps, IsTrue I old ρ e := by
  simp only [Facts.maps, List.forall_mem_cons]
  refine ⟨?_, ?_, ?_, ?_, ?_, ?_, ?_, ?_, by simp⟩
  · simp [hempty, hset]
  · simp
  · simpa [Finsupp.update_apply] using by grind
  · simpa using by grind
  · simpa using fun s => by ext; simp
  · simpa using fun s n hn => by rw [if_pos hn]; rfl
  · simpa using fun m n => eq_iff_entries
  · simp

/-- The facts of the prelude are true if its constants have their values. -/
theorem isTrue_facts (halloc : ρ "alloc" = .field .alloc) (hset : ρ "Set.Empty" = .set ∅)
    (hmultiset : ρ "MultiSet.Empty" = .multiset 0) (hseq : ρ "Seq.Empty" = .seq [])
    (hmap : ρ "Map.Empty" = .map 0) : ∀ e ∈ facts, IsTrue I old ρ e := by
  intro e he
  simp only [facts, List.mem_append] at he
  rcases he with (((((he | he) | he) | he) | he) | he) | he
  · exact isTrue_boxes e he
  · exact isTrue_heaps halloc e he
  · exact isTrue_datatypes e he
  · exact isTrue_sets hset e he
  · exact isTrue_multisets hmultiset e he
  · exact isTrue_seqs hseq e he
  · exact isTrue_maps hmap hset e he

end

end ContractLowering.Standard
