import ContractLowering.Proofs.Prelude.Collections

/-!
# Heaps in models of the prelude

What the prelude says of reading and updating heaps, for every model of it: an update changes one
location, and updates, boxes and array elements are of their sorts (`heaps_of_prelude`).
-/

namespace ContractLowering

open IL Prelude

/-- What a heap holds at a location. -/
def IL.Model.readAt (M : Model) (h o f : M.Val) : M.Val := M.app "read" [h, o, f]

/-- What the prelude says of heaps. -/
structure IL.Model.Heaps (M : Model) : Prop where
  read_update : ∀ {h o f b}, M.carrier heapSort h → M.carrier refSort o → M.carrier fieldSort f →
    M.carrier boxSort b → M.readAt (M.app "update" [h, o, f, b]) o f = b
  read_update_of_ne : ∀ {h o f b p g}, M.carrier heapSort h → M.carrier refSort o →
    M.carrier fieldSort f → M.carrier boxSort b → M.carrier refSort p → M.carrier fieldSort g →
    ¬ (o = p ∧ f = g) → M.readAt (M.app "update" [h, o, f, b]) p g = M.readAt h p g
  update_sort : ∀ {h o f b}, M.carrier heapSort h → M.carrier refSort o → M.carrier fieldSort f →
    M.carrier boxSort b → M.carrier heapSort (M.app "update" [h, o, f, b])
  index_sort : ∀ {i}, M.carrier .int i → M.carrier fieldSort (M.app "IndexField" [i])
  index_inv : ∀ {i}, M.carrier .int i → M.app "IndexField.inv" [M.app "IndexField" [i]] = i
  index_dim : ∀ {i}, M.carrier .int i → M.app "FDim" [M.app "IndexField" [i]] = M.ofInt 1
  box_sort : ∀ (s : BoxSort) {a}, M.carrier s.sort a → M.carrier boxSort (M.app s.boxName [a])

namespace Prelude

variable {M : Model} {old ρ : M.Valuation}

/-- A fact about all values of some sorts, at values of these sorts. -/
theorem holds_forAll_at {bs : List Binder} {as : List M.Val} {e : Expr}
    (h : Holds old ρ (Standard.forAll bs e)) (has : List.Forall₂ (fun b a => M.carrier b.2 a) bs as) :
    Holds old (Model.bind ((bs.map (·.1)).zip as) ρ) e := by
  rw [Standard.forAll, Holds, Expr.eval, M.truth_ofProp] at h
  exact h _ ⟨as, has, rfl⟩

/-- The function that boxes the values of a sort takes them to boxes. -/
theorem boxFunctions_box (s : BoxSort) :
    ∃ x, (s.boxName, [x], "Box") ∈ boxFunctions ∧ Srt.ofName x = s.sort := by
  cases s with
  | bool => exact ⟨"Bool", by decide, rfl⟩
  | int => exact ⟨"Int", by decide, rfl⟩
  | ref => exact ⟨"Ref", by decide, rfl⟩
  | datatype => exact ⟨"DatatypeType", by decide, rfl⟩
  | set => exact ⟨"Set", by decide, rfl⟩
  | multiset => exact ⟨"MultiSet", by decide, rfl⟩
  | seq => exact ⟨"Seq", by decide, rfl⟩
  | map => exact ⟨"Map", by decide, rfl⟩

theorem heaps_of_prelude (hM : Model.SatisfiesPrelude old ρ) : M.Heaps := by
  have hfacts : ∀ e ∈ Standard.Facts.heaps, Holds old ρ e :=
    fun e he => holds_of_mem hM.facts (by simp [Standard.facts, he])
  simp only [Standard.Facts.heaps, List.forall_mem_cons] at hfacts
  obtain ⟨hsame, hother, hinv, hdim, -⟩ := hfacts
  constructor
  case read_update =>
    intro h o f b hh ho hf hb
    simpa [Standard.Op.on, Standard.Op.name, Standard.Op.declared, Model.readAt, Function.update]
      using holds_forAll_at hsame (.cons hh (.cons ho (.cons hf (.cons hb .nil))))
  case read_update_of_ne =>
    intro h o f b p g hh ho hf hb hp hg hne
    have himp := holds_forAll_at hother
      (.cons hh (.cons ho (.cons hf (.cons hb (.cons hp (.cons hg .nil))))))
    have hread := (holds_implies _ _).1 himp
    rw [holds_or] at hread
    simp only [List.mem_cons, List.not_mem_nil, or_false, exists_eq_or_imp, exists_eq_left,
      holds_not, holds_eq] at hread
    simpa [Standard.Op.on, Standard.Op.name, Standard.Op.declared, Model.readAt, Function.update]
      using hread (by simpa [Function.update, or_iff_not_imp_left] using hne)
  case update_sort =>
    intro h o f b hh ho hf hb
    exact hM.app (declares_func (f := ("update", ["Heap", "Ref", "Field", "Box"], "Heap"))
      (by simp [functions, heapFunctions])) (.cons hh (.cons ho (.cons hf (.cons hb .nil))))
  case index_sort =>
    intro i hi
    exact hM.app (declares_func (f := ("IndexField", ["Int"], "Field"))
      (by simp [functions, heapFunctions])) (.cons hi .nil)
  case index_inv =>
    intro i hi
    simpa [Standard.Op.on, Standard.Op.name, Standard.Op.declared]
      using holds_forAll_at hinv (.cons hi .nil)
  case index_dim =>
    intro i hi
    have hone := holds_forAll_at hdim (.cons hi .nil)
    rw [holds_eq, show IL.Expr.num "1" = .nat 1 from rfl, IL.Expr.eval_nat] at hone
    simpa [Standard.Op.on, Standard.Op.name, Standard.Op.declared] using hone
  case box_sort =>
    intro s a ha
    obtain ⟨x, hx, hsort⟩ := boxFunctions_box s
    exact hM.app (declares_func (f := (s.boxName, [x], "Box")) (by simp [functions, hx]))
      (.cons (by rwa [hsort]) .nil)

end Prelude

end ContractLowering
