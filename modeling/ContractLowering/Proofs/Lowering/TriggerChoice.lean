import ContractLowering.Lowering.Triggers
import ContractLowering.Proofs.IL.Alpha
import Mathlib

/-!
# The choice of triggers does not depend on names

Triggers are chosen by the size of terms and by how many of the bound variables they mention. Both
are the same for expressions that differ in bound names, so corresponding triggers are chosen
(`select_alpha`).
-/

namespace ContractLowering.Triggers

open IL

/-! ## Related lists -/

section

variable {α β : Type} {R : α → β → Prop}

theorem forall₂_of_zip {as : List α} {bs : List β} (hlen : as.length = bs.length)
    (h : ∀ a b, (a, b) ∈ as.zip bs → R a b) : List.Forall₂ R as bs :=
  List.forall₂_iff_zip.2 ⟨hlen, fun hab => h _ _ hab⟩

/-- Tests that agree on related elements agree on related lists. -/
theorem forall₂_all {p : α → Bool} {q : β → Bool} {as : List α} {bs : List β}
    (h : List.Forall₂ (fun a b => p a = q b) as bs) : as.all p = bs.all q := by
  induction h with
  | nil => rfl
  | cons h _ ih => rw [List.all_cons, List.all_cons, h, ih]

theorem forall₂_any {p : α → Bool} {q : β → Bool} {as : List α} {bs : List β}
    (h : List.Forall₂ (fun a b => p a = q b) as bs) : as.any p = bs.any q := by
  induction h with
  | nil => rfl
  | cons h _ ih => rw [List.any_cons, List.any_cons, h, ih]

theorem forall₂_filter {p : α → Bool} {q : β → Bool} (hpq : ∀ a b, R a b → p a = q b)
    {as : List α} {bs : List β} (h : List.Forall₂ R as bs) :
    List.Forall₂ R (as.filter p) (bs.filter q) :=
  List.rel_filter (fun a b hab => iff_of_eq (congrArg (· = true) (hpq a b hab))) h

/-- Related elements are both in related lists or both not, if the relation is one to one. -/
theorem mem_iff_of_forall₂ (hR : Relator.BiUnique R) {as : List α} {bs : List β}
    (h : List.Forall₂ R as bs) {a : α} {b : β} (hab : R a b) : a ∈ as ↔ b ∈ bs := by
  induction h with
  | nil => simp
  | @cons a' b' as bs hab' _ ih =>
    have heq : a = a' ↔ b = b' :=
      ⟨fun ha => hR.2 (ha ▸ hab) hab', fun hb => hR.1 (hb ▸ hab) hab'⟩
    rw [List.mem_cons, List.mem_cons, heq, ih]

/-- Related lists stay related without the repetitions, if the relation is one to one. -/
theorem forall₂_eraseDups [BEq α] [LawfulBEq α] [BEq β] [LawfulBEq β] (hR : Relator.BiUnique R)
    {as : List α} {bs : List β} (h : List.Forall₂ R as bs) :
    List.Forall₂ R as.eraseDups bs.eraseDups := by
  match as, bs, h with
  | [], [], .nil => exact .nil
  | a :: as, b :: bs, .cons hab h =>
    rw [List.eraseDups_cons, List.eraseDups_cons]
    have hfilter : List.Forall₂ R (as.filter fun x => !x == a) (bs.filter fun y => !y == b) := by
      refine forall₂_filter (fun x y hxy => ?_) h
      have heq : x = a ↔ y = b :=
        ⟨fun hx => hR.2 (hx ▸ hxy) hab, fun hy => hR.1 (hy ▸ hxy) hab⟩
      by_cases hx : x = a
      · simp [hx, heq.1 hx]
      · simp [hx, mt heq.2 hx]
    have hlen : (as.filter fun x => !x == a).length ≤ as.length := List.length_filter_le _ _
    exact .cons hab (forall₂_eraseDups hR hfilter)
termination_by as.length

/-- Sorting related lists by related comparisons gives related lists. -/
theorem forall₂_mergeSort {as : List α} {bs : List β} {le : α → α → Bool} {le' : β → β → Bool}
    (h : List.Forall₂ R as bs)
    (hle : ∀ a b, R a b → ∀ a' b', R a' b' → le a a' = le' b b') :
    List.Forall₂ R (as.mergeSort le) (bs.mergeSort le') := by
  obtain ⟨hlen, hzip⟩ := List.forall₂_iff_zip.1 h
  -- both lists are sorted along with the other one
  let sorted := (as.zip bs).mergeSort fun p q => le p.1 q.1
  have hfst : sorted.map Prod.fst = as.mergeSort le := by
    rw [List.map_mergeSort (s := le) fun _ _ _ _ => rfl, List.map_fst_zip (Nat.le_of_eq hlen)]
  have hsnd : sorted.map Prod.snd = bs.mergeSort le' := by
    rw [List.map_mergeSort (s := le') fun p hp q hq => hle _ _ (hzip hp) _ _ (hzip hq),
      List.map_snd_zip (Nat.le_of_eq hlen.symm)]
  rw [← hfst, ← hsnd, List.forall₂_map_left_iff, List.forall₂_map_right_iff]
  exact List.forall₂_same.2 fun p hp => hzip (List.mem_mergeSort.1 hp)

end

/-! ## Terms -/

section

variable {C : String → String → Prop} {a b : Expr}

theorem areTerms_eq (es : List Expr) : areTerms es = es.all isTerm := by
  induction es with
  | nil => rfl
  | cons e es ih => rw [areTerms, ih, List.all_cons]

theorem sizes_eq (es : List Expr) : sizes es = (es.map size).sum := by
  induction es with
  | nil => rfl
  | cons e es ih => rw [sizes, ih, List.map_cons, List.sum_cons]

theorem varsList_eq (es : List Expr) : varsList es = es.flatMap vars := by
  induction es with
  | nil => rfl
  | cons e es ih => rw [varsList, ih, List.flatMap_cons]

theorem candidatesList_eq (bound : List String) (es : List Expr) :
    candidatesList bound es = es.flatMap (candidates bound) := by
  induction es with
  | nil => rfl
  | cons e es ih => rw [candidatesList, ih, List.flatMap_cons]

theorem isTerm_alpha (h : Alpha C a b) : isTerm a = isTerm b := by
  induction h with
  | app hlen _ ih =>
    rw [isTerm, isTerm, areTerms_eq, areTerms_eq]
    exact forall₂_all (forall₂_of_zip hlen ih)
  | _ => rfl

theorem size_alpha (h : Alpha C a b) : size a = size b := by
  induction h with
  | @app C g as bs hlen _ ih =>
    have hsizes : List.Forall₂ Eq (as.map size) (bs.map size) :=
      List.forall₂_map_left_iff.2 (List.forall₂_map_right_iff.2 (forall₂_of_zip hlen ih))
    rw [List.forall₂_eq_eq_eq] at hsizes
    rw [size, size, sizes_eq, sizes_eq, hsizes]
  | _ => rfl

theorem forall₂_flatMap {α β : Type} {R : α → β → Prop} {as bs : List Expr}
    {f : Expr → List α} {g : Expr → List β} (hlen : as.length = bs.length)
    (h : ∀ a b, (a, b) ∈ as.zip bs → List.Forall₂ R (f a) (g b)) :
    List.Forall₂ R (as.flatMap f) (bs.flatMap g) := by
  have hall := forall₂_of_zip hlen h
  clear hlen h
  induction hall with
  | nil => exact .nil
  | cons h _ ih => exact List.rel_append h ih

theorem vars_alpha (h : Alpha C a b) : List.Forall₂ C (vars a) (vars b) := by
  induction h with
  | var h => exact .cons h .nil
  | app hlen _ ih =>
    rw [vars, vars, varsList_eq, varsList_eq]
    exact forall₂_flatMap hlen ih
  | _ => exact .nil

end

/-! ## Choices -/

section

variable {xs ys : List String} {C : String → String → Prop} {a b : Expr}

/-- Bound variables correspond to bound variables, one to one. -/
structure Bound (xs ys : List String) (C : String → String → Prop) : Prop where
  length : xs.length = ys.length
  mem : ∀ {x y}, C x y → (x ∈ xs ↔ y ∈ ys)
  unique : Relator.BiUnique C

theorem Bound.contains (h : Bound xs ys C) {x y : String} (hxy : C x y) :
    xs.contains x = ys.contains y := by
  rw [Bool.eq_iff_iff, List.contains_iff_mem, List.contains_iff_mem]
  exact h.mem hxy

theorem mentioned_alpha (hb : Bound xs ys C) (h : Alpha C a b) :
    List.Forall₂ C (mentioned xs a) (mentioned ys b) :=
  forall₂_eraseDups hb.unique
    (forall₂_filter (fun _ _ hxy => hb.contains hxy) (vars_alpha h))

theorem isCandidate_alpha (hb : Bound xs ys C) {f : String} {as bs : List Expr}
    (hlen : as.length = bs.length) (h : ∀ a b, (a, b) ∈ as.zip bs → Alpha C a b) :
    isCandidate xs f as = isCandidate ys f bs := by
  have hterms : areTerms as = areTerms bs := isTerm_alpha (Alpha.app (g := f) hlen h)
  have hvars : List.Forall₂ C (varsList as) (varsList bs) := vars_alpha (Alpha.app (g := f) hlen h)
  have hany : (varsList as).any xs.contains = (varsList bs).any ys.contains :=
    forall₂_any (hvars.imp fun _ _ hxy => hb.contains hxy)
  rw [isCandidate, isCandidate, hterms, hany]

theorem candidates_alpha (hb : Bound xs ys C) (h : Alpha C a b) :
    List.Forall₂ (Alpha C) (candidates xs a) (candidates ys b) := by
  induction h with
  | app hlen h ih =>
    rw [candidates, candidates, candidatesList_eq, candidatesList_eq, isCandidate_alpha hb hlen h]
    refine List.rel_append ?_ (forall₂_flatMap hlen fun a b hab => ih a b hab hb)
    split
    · exact .cons (.app hlen h) .nil
    · exact .nil
  | applyLambda _ hlen _ ihf ih =>
    rw [candidates, candidates, candidatesList_eq, candidatesList_eq]
    exact List.rel_append (ihf hb) (forall₂_flatMap hlen fun a b hab => ih a b hab hb)
  | not _ ih => exact ih hb
  | binary _ _ iha ihb => exact List.rel_append (iha hb) (ihb hb)
  | multi hlen _ ih =>
    rw [candidates, candidates, candidatesList_eq, candidatesList_eq]
    exact forall₂_flatMap hlen fun a b hab => ih a b hab hb
  | ite _ _ _ iha ihb ihc => exact List.rel_append (List.rel_append (iha hb) (ihb hb)) (ihc hb)
  | _ => exact .nil

theorem smallest?_alpha {as bs : List Expr} (h : List.Forall₂ (Alpha C) as bs) :
    Option.Rel (Alpha C) (smallest? as) (smallest? bs) := by
  induction h with
  | nil => exact .none
  | cons hab _ ih =>
    rw [smallest?, smallest?]
    generalize smallest? _ = o at ih ⊢
    generalize smallest? _ = o' at ih ⊢
    cases ih with
    | none => exact .some hab
    | some ih =>
      dsimp only
      rw [size_alpha hab, size_alpha ih]
      split
      · exact .some hab
      · exact .some ih

theorem before_alpha (hb : Bound xs ys C) {a' b' : Expr} (h : Alpha C a b) (h' : Alpha C a' b') :
    before xs a a' = before ys b b' := by
  rw [before, before, (mentioned_alpha hb h).length_eq, (mentioned_alpha hb h').length_eq,
    size_alpha h, size_alpha h']

theorem cover?_alpha (hb : Bound xs ys C) {us vs : List String} (hcovered : List.Forall₂ C us vs)
    {as bs : List Expr} (h : List.Forall₂ (Alpha C) as bs) :
    Option.Rel (List.Forall₂ (Alpha C)) (cover? xs us as) (cover? ys vs bs) := by
  induction h generalizing us vs with
  | nil => exact .none
  | @cons a b as bs hab _ ih =>
    have hnew : List.Forall₂ C ((mentioned xs a).filter fun x => !us.contains x)
        ((mentioned ys b).filter fun y => !vs.contains y) := by
      refine forall₂_filter (fun x y hxy => ?_) (mentioned_alpha hb hab)
      simp [mem_iff_of_forall₂ hb.unique hcovered hxy]
    have hall := List.rel_append hcovered hnew
    unfold cover?
    dsimp only
    generalize (mentioned xs a).filter _ = new at hnew hall ⊢
    generalize (mentioned ys b).filter _ = new' at hnew hall ⊢
    have htaken : List.Forall₂ (Alpha C) (if new.isEmpty then [] else [a])
        (if new'.isEmpty then [] else [b]) := by
      cases hnew with
      | nil => exact .nil
      | cons => exact .cons hab .nil
    rw [hall.length_eq, hb.length]
    split
    · exact .some htaken
    · have hrest := ih hall
      generalize cover? xs _ as = o at hrest ⊢
      generalize cover? ys _ bs = o' at hrest ⊢
      cases hrest with
      | none => exact .none
      | some hrest => exact .some (List.rel_append htaken hrest)

/-- The triggers that are chosen for expressions with different bound names correspond. -/
theorem select_alpha (hb : Bound xs ys C) (h : Alpha C a b) :
    List.Forall₂ (List.Forall₂ (Alpha C)) (select xs a) (select ys b) := by
  have hfound := candidates_alpha hb h
  have hempty : xs.isEmpty = ys.isEmpty := by
    rw [Bool.eq_iff_iff, List.isEmpty_iff_length_eq_zero, List.isEmpty_iff_length_eq_zero, hb.length]
  have hfull := forall₂_filter (p := fun t => (mentioned xs t).length == xs.length)
    (q := fun t => (mentioned ys t).length == ys.length)
    (fun t u htu => by rw [(mentioned_alpha hb htu).length_eq, hb.length]) hfound
  have hcover := cover?_alpha hb .nil
    (forall₂_mergeSort hfound fun _ _ htu _ _ htu' => before_alpha hb htu htu')
  unfold select
  rw [hempty]
  split
  · exact .nil
  · have hsmallest := smallest?_alpha hfull
    dsimp only
    generalize smallest? ((candidates xs a).filter _) = o at hsmallest ⊢
    generalize smallest? ((candidates ys b).filter _) = o' at hsmallest ⊢
    cases hsmallest with
    | some ht => exact .cons (.cons ht .nil) .nil
    | none =>
      dsimp only
      generalize cover? xs [] _ = o at hcover ⊢
      generalize cover? ys [] _ = o' at hcover ⊢
      cases hcover with
      | none => exact .nil
      | some hts => exact .cons hts .nil

end

end ContractLowering.Triggers
