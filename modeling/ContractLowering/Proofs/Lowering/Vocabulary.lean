import ContractLowering.Lowering.Datatype
import ContractLowering.Lowering.Function
import ContractLowering.Proofs.IL.Sorting
import ContractLowering.Proofs.Prelude.Declared
import ContractLowering.Proofs.Source.WellTyped

/-!
# Signatures of lowered programs

`Vocabulary.Covers Δ c` says that `Δ` holds what the standard prelude declares and what the fields,
constructors and functions of the program `c` are declared with. From the prelude, lowered code
applies the operations listed in `Vocabulary.Operations`.

Boxing and unboxing look at what they are applied to and may give a part of it back. Under such a
signature that part has the sort that is asked for, since a box never has a native sort.
-/

namespace ContractLowering

open IL Source

/-! ## Signatures -/

/-- A signature holds the functions of the standard prelude and what is declared for the
declarations of a program. -/
structure IL.Vocabulary.Covers (Δ : Vocabulary) (c : Context) : Prop where
  prelude : ∀ f ∈ Prelude.functions, Δ.func f.1 = some (f.2.1.map Srt.ofName, Srt.ofName f.2.2)
  fields : ∀ f, c.field f.id = .ok f → ∀ d ∈ Request.fieldDecls f, Δ.Declares d
  ctors : ∀ p d, c.datatype p = .ok d → ∀ k ∈ d.ctors, ∀ e ∈ k.decls p, Δ.Declares e
  functions : ∀ p f, c.function p = .ok f → ∀ l ∈ f.layers (c.calls.isRecursive p),
    Δ.Declares (.func (Naming.layered p l.1) f.sorts l.2)

/-- The functions of the standard prelude have different names. -/
theorem Prelude.functions_nodup : (functions.map (·.1)).Nodup := by decide +kernel

/-- A table that begins with the functions of the standard prelude gives them their sorts. -/
theorem Prelude.lookup_functions (others : List (String × List Srt × Srt)) {f : Signature}
    (hf : f ∈ functions) :
    (functions.map (fun f => (f.1, f.2.1.map Srt.ofName, Srt.ofName f.2.2)) ++ others).lookup f.1 =
      some (f.2.1.map Srt.ofName, Srt.ofName f.2.2) := by
  have hnames := functions_nodup
  generalize functions = fs at hf hnames
  induction fs with
  | nil => cases hf
  | cons g fs ih =>
    rw [List.map_cons, List.nodup_cons] at hnames
    rw [List.map_cons, List.cons_append]
    rcases List.mem_cons.1 hf with rfl | hf
    · exact List.lookup_cons_self
    · have hne : (f.1 == g.1) = false :=
        beq_eq_false_iff_ne.2 fun heq => hnames.1 (heq ▸ List.mem_map_of_mem hf)
      rw [List.lookup_cons, hne]
      exact ih hf hnames.2

/-- The sort of the values that are boxed. -/
def Prelude.BoxSort.sort : Prelude.BoxSort → Srt
  | .bool => .bool
  | .int => .int
  | .ref => refSort
  | .datatype => datatypeSort
  | .set => setSort
  | .multiset => multisetSort
  | .seq => seqSort
  | .map => mapSort

open Prelude in
/-- The functions of the prelude that lowered code applies have their sorts. -/
structure IL.Vocabulary.Operations (Δ : Vocabulary) : Prop where
  read : Δ.func "read" = some ([heapSort, refSort, fieldSort], boxSort)
  isGoodHeap : Δ.func "$IsGoodHeap" = some ([heapSort], .bool)
  heapSucc : Δ.func "$HeapSucc" = some ([heapSort, heapSort], .bool)
  dtype : Δ.func "dtype" = some ([refSort], classNameSort)
  indexField : Δ.func "IndexField" = some ([.int], fieldSort)
  arrayLength : Δ.func "array.Length" = some ([refSort], .int)
  dtRank : Δ.func "DtRank" = some ([datatypeSort], .int)
  isAllocDt : Δ.func "$IsAllocDt" = some ([datatypeSort, heapSort], .bool)
  setMem : Δ.func "Set.mem" = some ([setSort, boxSort], .bool)
  setUnionOne : Δ.func "Set.UnionOne" = some ([setSort, boxSort], setSort)
  setUnion : Δ.func "Set.Union" = some ([setSort, setSort], setSort)
  setIntersection : Δ.func "Set.Intersection" = some ([setSort, setSort], setSort)
  setDifference : Δ.func "Set.Difference" = some ([setSort, setSort], setSort)
  setSubset : Δ.func "Set.Subset" = some ([setSort, setSort], .bool)
  setEqual : Δ.func "Set.Equal" = some ([setSort, setSort], .bool)
  setDisjoint : Δ.func "Set.Disjoint" = some ([setSort, setSort], .bool)
  setCard : Δ.func "Set.Card" = some ([setSort], .int)
  setFromPredicate : Δ.func "Set.FromPredicate" = some ([.lambda], setSort)
  isGoodSet : Δ.func "$IsGoodSet" = some ([setSort], .bool)
  multiplicity : Δ.func "MultiSet.Multiplicity" = some ([multisetSort, boxSort], .int)
  multisetUnionOne : Δ.func "MultiSet.UnionOne" = some ([multisetSort, boxSort], multisetSort)
  multisetUnion : Δ.func "MultiSet.Union" = some ([multisetSort, multisetSort], multisetSort)
  multisetIntersection :
    Δ.func "MultiSet.Intersection" = some ([multisetSort, multisetSort], multisetSort)
  multisetDifference :
    Δ.func "MultiSet.Difference" = some ([multisetSort, multisetSort], multisetSort)
  multisetSubset : Δ.func "MultiSet.Subset" = some ([multisetSort, multisetSort], .bool)
  multisetEqual : Δ.func "MultiSet.Equal" = some ([multisetSort, multisetSort], .bool)
  multisetDisjoint : Δ.func "MultiSet.Disjoint" = some ([multisetSort, multisetSort], .bool)
  multisetCard : Δ.func "MultiSet.Card" = some ([multisetSort], .int)
  isGoodMultiset : Δ.func "$IsGoodMultiSet" = some ([multisetSort], .bool)
  seqLength : Δ.func "Seq.Length" = some ([seqSort], .int)
  seqIndex : Δ.func "Seq.Index" = some ([seqSort, .int], boxSort)
  seqBuild : Δ.func "Seq.Build" = some ([seqSort, boxSort], seqSort)
  seqAppend : Δ.func "Seq.Append" = some ([seqSort, seqSort], seqSort)
  seqUpdate : Δ.func "Seq.Update" = some ([seqSort, .int, boxSort], seqSort)
  seqTake : Δ.func "Seq.Take" = some ([seqSort, .int], seqSort)
  seqDrop : Δ.func "Seq.Drop" = some ([seqSort, .int], seqSort)
  seqEqual : Δ.func "Seq.Equal" = some ([seqSort, seqSort], .bool)
  seqSameUntil : Δ.func "Seq.SameUntil" = some ([seqSort, seqSort, .int], .bool)
  seqContains : Δ.func "Seq.Contains" = some ([seqSort, boxSort], .bool)
  seqFromArray : Δ.func "Seq.FromArray" = some ([heapSort, refSort], seqSort)
  mapDomain : Δ.func "Map.Domain" = some ([mapSort], setSort)
  mapElements : Δ.func "Map.Elements" = some ([mapSort, boxSort], boxSort)
  mapBuild : Δ.func "Map.Build" = some ([mapSort, boxSort, boxSort], mapSort)
  mapCard : Δ.func "Map.Card" = some ([mapSort], .int)
  mapEqual : Δ.func "Map.Equal" = some ([mapSort, mapSort], .bool)
  mapGlue : Δ.func "Map.Glue" = some ([setSort, .lambda], mapSort)
  box : ∀ s : BoxSort, Δ.func s.boxName = some ([s.sort], boxSort)
  unbox : ∀ s : BoxSort, Δ.func s.unboxName = some ([boxSort], s.sort)

open Prelude in
/-- A signature that covers a program has the operations of the prelude. -/
theorem IL.Vocabulary.Covers.operations {Δ : Vocabulary} {c : Context} (h : Δ.Covers c) :
    Δ.Operations := by
  have htable := h.prelude
  simp only [Prelude.functions, heapFunctions, boxFunctions, isBoxFunctions, datatypeFunctions,
    setFunctions, multisetFunctions, seqFunctions, mapFunctions, List.cons_append, List.nil_append,
    List.forall_mem_cons] at htable
  casesm* _ ∧ _
  constructor
  case box => rintro (_ | _) <;> assumption
  case unbox => rintro (_ | _) <;> assumption
  all_goals assumption

/-! ## Boxes -/

namespace Boxing

variable {Δ : Vocabulary} {G : Sorts} {t source target : Typ} {e a : IL.Expr}
  {s : Prelude.BoxSort}

theorem eq_of_boxed (h : applied? e = some (.boxed s a)) : e = .app s.boxName [a] := by
  unfold applied? at h
  split at h
  · rename_i f a'
    split at h
    · rename_i s' hs'
      cases h
      have hname := List.find?_some hs'
      rw [eq_of_beq hname]
    · simp at h
  · cases h

theorem eq_of_unboxed (h : applied? e = some (.unboxed s a)) : e = .app s.unboxName [a] := by
  unfold applied? at h
  split at h
  · rename_i f a'
    split at h
    · cases h
    · obtain ⟨s', hs', heq⟩ := Option.map_eq_some_iff.1 h
      cases heq
      have hname := List.find?_some hs'
      rw [eq_of_beq hname]
  · cases h

theorem sort_of_boxSort? (h : t.boxSort? = some s) : t.sort = s.sort := by
  cases t <;> simp only [Typ.boxSort?, Option.some.injEq, reduceCtorEq] at h <;> subst h <;> rfl

theorem sort_of_isBoxed (h : t.isBoxed = true) : t.sort = Prelude.boxSort := by
  cases t <;> simp [Typ.isBoxed, Typ.boxSort?] at h
  rfl

theorem boxSort_ne (s : Prelude.BoxSort) : s.sort ≠ Prelude.boxSort := by
  cases s <;> decide

theorem arg_sort {f : String} {r r' : Srt} (hf : Δ.func f = some ([r'], r)) {s : Srt}
    (h : (IL.Expr.app f [a]).sort? Δ G = some s) : s = r ∧ a.sort? Δ G = some r' := by
  obtain ⟨ss, hf', hargs⟩ := Expr.args_of_sort?_app h
  rw [hf] at hf'
  cases hf'
  obtain ⟨ha, -⟩ := List.forall₂_cons.1 hargs
  exact ⟨rfl, ha⟩

/-- Boxing a value of a type gives a box. -/
theorem sort?_box (hΔ : Δ.Operations) (h : e.sort? Δ G = some t.sort) :
    (box t e).sort? Δ G = some Prelude.boxSort := by
  unfold box
  cases hs : t.boxSort? with
  | none => exact h.trans (congrArg some (sort_of_isBoxed (by simp [Typ.isBoxed, hs])))
  | some s =>
    have hsort := sort_of_boxSort? hs
    have happ : (IL.Expr.app s.boxName [e]).sort? Δ G = some Prelude.boxSort :=
      Expr.sort?_app (hΔ.box s) (.cons (hsort ▸ h) .nil)
    simp only
    split
    · rename_i s' inner heq
      split
      · rw [eq_of_unboxed heq] at h
        exact (arg_sort (hΔ.unbox s') h).2
      · exact happ
    · -- What is boxed already does not have a native sort.
      rename_i s' inner heq
      rw [eq_of_boxed heq] at h
      exact absurd (hsort.symm.trans (arg_sort (hΔ.box s') h).1) (boxSort_ne s)
    · exact happ

/-- Unboxing a box gives a value of the type. -/
theorem sort?_unbox (hΔ : Δ.Operations) (t : Typ) (h : e.sort? Δ G = some Prelude.boxSort) :
    (unbox t e).sort? Δ G = some t.sort := by
  unfold unbox
  cases hs : t.boxSort? with
  | none => exact h.trans (congrArg some (sort_of_isBoxed (by simp [Typ.isBoxed, hs])).symm)
  | some s =>
    rw [sort_of_boxSort? hs]
    have happ : (IL.Expr.app s.unboxName [e]).sort? Δ G = some s.sort :=
      Expr.sort?_app (hΔ.unbox s) (.cons h .nil)
    simp only
    split
    · rename_i s' inner heq
      split
      · rename_i hs'
        rw [eq_of_boxed heq] at h
        exact hs' ▸ (arg_sort (hΔ.box s') h).2
      · exact happ
    · rename_i s' inner heq
      rw [eq_of_unboxed heq] at h
      exact absurd (arg_sort (hΔ.unbox s') h).1.symm (boxSort_ne s')
    · exact happ

/-- Converting between types that fit gives a value of the target. -/
theorem sort?_convert (hΔ : Δ.Operations) (hfit : source.Fits target)
    (h : e.sort? Δ G = some source.sort) :
    (convert source target e).sort? Δ G = some target.sort := by
  unfold convert boxTo unboxTo
  cases hsource : source.isBoxed <;> cases htarget : target.isBoxed
  · rcases hfit with hfit | hfit
    · simpa [hfit] using h
    · simp [hsource, htarget] at hfit
  · simpa [sort_of_isBoxed htarget] using sort?_box hΔ h
  · simpa using sort?_unbox hΔ target (sort_of_isBoxed hsource ▸ h)
  · simpa [sort_of_isBoxed hsource, sort_of_isBoxed htarget] using h

end Boxing

end ContractLowering
