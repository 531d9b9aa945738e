import ContractLowering.Proofs.CallGraph
import ContractLowering.Proofs.Lowering.Rank
import ContractLowering.Proofs.Lowering.Returns
import Mathlib.Data.Set.Card

/-!
# Descent of measures along calls

Every component of a measure has a height, a natural number that goes down when the generated
formula calls the component less and stays when it calls it unchanged: integers are their own
heights, sequences have their length, collections the number of their elements. So a call whose
obligations hold lowers the heights in lexicographic order (`lex_of_goesDown`), unless everything
before the first pair of components that cannot be compared is unchanged (`StopsEarly`): there the
comparison ends in favour of the call, whatever the values are.

The measures of a program have bounded length, so heights do not go down forever, whatever the
number and the types of the components of each member are (`stopsEarly_of_recursion`). A member
whose measure is a value of a type parameter can call itself forever
(`endless_on_type_parameter`).
-/

namespace ContractLowering

open IL Source

variable {M : Model}

/-! ## Heights -/

namespace IL.Model

/-- The elements of a set. -/
def elements (M : Model) (s : M.Val) : Set M.Val :=
  {b | M.carrier Prelude.boxSort b ∧ M.truth (M.app "Set.mem" [s, b])}

/-- How often a box occurs in a multiset. -/
def count (M : Model) (s b : M.Val) : Int := M.toInt (M.app "MultiSet.Multiplicity" [s, b])

/-- The occurrences of elements in a multiset, numbered for each element. -/
def occurrences (M : Model) (s : M.Val) : Set (M.Val × Nat) :=
  {p | M.carrier Prelude.boxSort p.1 ∧ (p.2 : Int) < M.count s p.1}

/-- What the facts of the prelude say of ranks, sequences, inclusion and equality, in a model whose
sets, multisets and map domains are finite. -/
structure Finitary (M : Model) : Prop extends M.Ranked where
  set_finite : ∀ s, M.carrier Prelude.setSort s → (M.elements s).Finite
  set_subset : ∀ s t, M.carrier Prelude.setSort s → M.carrier Prelude.setSort t →
    (M.truth (M.app "Set.Subset" [s, t]) ↔ M.elements s ⊆ M.elements t)
  set_equal : ∀ s t, M.carrier Prelude.setSort s → M.carrier Prelude.setSort t →
    (M.truth (M.app "Set.Equal" [s, t]) ↔ M.elements s = M.elements t)
  multiset_finite : ∀ s, M.carrier Prelude.multisetSort s → (M.occurrences s).Finite
  count_nonneg : ∀ s b, M.carrier Prelude.multisetSort s → 0 ≤ M.count s b
  multiset_subset : ∀ s t, M.carrier Prelude.multisetSort s → M.carrier Prelude.multisetSort t →
    (M.truth (M.app "MultiSet.Subset" [s, t]) ↔
      ∀ b, M.carrier Prelude.boxSort b → M.count s b ≤ M.count t b)
  multiset_equal : ∀ s t, M.carrier Prelude.multisetSort s → M.carrier Prelude.multisetSort t →
    (M.truth (M.app "MultiSet.Equal" [s, t]) ↔
      ∀ b, M.carrier Prelude.boxSort b → M.count s b = M.count t b)
  domain_sort : ∀ m, M.carrier Prelude.mapSort m →
    M.carrier Prelude.setSort (M.app "Map.Domain" [m])
  map_equal : ∀ m n, M.carrier Prelude.mapSort m → M.carrier Prelude.mapSort n →
    M.truth (M.app "Map.Equal" [m, n]) →
      M.elements (M.app "Map.Domain" [m]) = M.elements (M.app "Map.Domain" [n])

open Classical in
/-- The height of a value in an order. `nil` is the null reference. -/
noncomputable def height (M : Model) (nil : M.Val) : Termination.Order → M.Val → Nat
  | .bool, a => if M.truth a then 1 else 0
  | .int, a => (M.toInt a).toNat
  | .seq, a => (M.toInt (M.app "Seq.Length" [a])).toNat
  | .datatype, a => (M.toInt (M.app "DtRank" [a])).toNat
  | .set, a => (M.elements a).ncard
  | .multiset, a => (M.occurrences a).ncard
  | .map, a => (M.elements (M.app "Map.Domain" [a])).ncard
  | .ref, a => if a = nil then 0 else 1
  | .growing, _ => 0

variable {a b : M.Val}

/-- A proper part of a finite multiset without negative counts has fewer occurrences. -/
theorem ncard_occurrences_lt (hfinite : (M.occurrences a).Finite)
    (hnonneg : ∀ x, M.carrier Prelude.boxSort x → 0 ≤ M.count b x)
    (hle : ∀ x, M.carrier Prelude.boxSort x → M.count b x ≤ M.count a x)
    (hne : ¬ ∀ x, M.carrier Prelude.boxSort x → M.count b x = M.count a x) :
    (M.occurrences b).ncard < (M.occurrences a).ncard := by
  push Not at hne
  obtain ⟨x, hx, hne⟩ := hne
  refine Set.ncard_lt_ncard ⟨fun p hp => ?_, fun h => ?_⟩ hfinite
  · exact ⟨hp.1, hp.2.trans_le (hle _ hp.1)⟩
  · have hlt : M.count b x < M.count a x := lt_of_le_of_ne (hle x hx) hne
    have hmem : (x, (M.count b x).toNat) ∈ M.occurrences a :=
      ⟨hx, by simpa [hnonneg x hx] using hlt⟩
    have hlast := (h hmem).2
    simp [hnonneg x hx] at hlast

/-- Multisets with the same counts have the same occurrences. -/
theorem occurrences_eq_of_count
    (h : ∀ x, M.carrier Prelude.boxSort x → M.count b x = M.count a x) :
    M.occurrences b = M.occurrences a := by
  ext p
  exact and_congr_right fun hp => by rw [h _ hp]

theorem Finitary.occurrences_lt (hM : M.Finitary) (ha : M.carrier Prelude.multisetSort a)
    (hb : M.carrier Prelude.multisetSort b)
    (hsubset : M.truth (M.app "MultiSet.Subset" [b, a]))
    (hne : ¬ M.truth (M.app "MultiSet.Equal" [b, a])) :
    (M.occurrences b).ncard < (M.occurrences a).ncard := by
  rw [hM.multiset_subset b a hb ha] at hsubset
  rw [hM.multiset_equal b a hb ha] at hne
  exact ncard_occurrences_lt (hM.multiset_finite a ha) (fun x _ => hM.count_nonneg b x hb)
    hsubset hne

theorem Finitary.occurrences_eq (hM : M.Finitary) (ha : M.carrier Prelude.multisetSort a)
    (hb : M.carrier Prelude.multisetSort b)
    (hequal : M.truth (M.app "MultiSet.Equal" [b, a])) : M.occurrences b = M.occurrences a :=
  occurrences_eq_of_count ((hM.multiset_equal b a hb ha).1 hequal)

/-- A proper subset of a finite set has fewer elements. -/
theorem Finitary.elements_lt (hM : M.Finitary) (ha : M.carrier Prelude.setSort a)
    (hb : M.carrier Prelude.setSort b) (hsubset : M.truth (M.app "Set.Subset" [b, a]))
    (hne : ¬ M.truth (M.app "Set.Equal" [b, a])) :
    (M.elements b).ncard < (M.elements a).ncard := by
  rw [hM.set_subset b a hb ha] at hsubset
  rw [hM.set_equal b a hb ha] at hne
  exact Set.ncard_lt_ncard (hsubset.ssubset_of_ne hne) (hM.set_finite a ha)

end IL.Model

/-! ## Components -/

variable {old ρ : M.Valuation} {nil : M.Val} {o n : MeasureValue} {order : Termination.Order}

/-- That a component has a value of the sort of its type. -/
def MeasureValue.Sorted (old ρ : M.Valuation) (v : MeasureValue) : Prop :=
  M.carrier v.typ.sort (v.expr.eval old ρ)

/-- The sort of the values that an order compares. -/
def Termination.Order.sort : Termination.Order → Srt
  | .bool => .bool
  | .int | .growing => .int
  | .seq => Prelude.seqSort
  | .datatype => Prelude.datatypeSort
  | .set => Prelude.setSort
  | .multiset => Prelude.multisetSort
  | .map => Prelude.mapSort
  | .ref => Prelude.refSort

theorem MeasureValue.Sorted.carrier (h : o.Sorted old ρ) (hgrow : o.everIncreasing = false)
    (horder : Termination.order? o = some order) : M.carrier order.sort (o.expr.eval old ρ) := by
  have hsort : o.typ.sort = order.sort := by
    cases ht : o.typ with
    | param x => simp [Termination.order?, hgrow, ht] at horder
    | _ =>
      simp only [Termination.order?, hgrow, ht, Bool.false_eq_true, if_false,
        Option.some.injEq] at horder
      subst horder
      rfl
  exact hsort ▸ h

/-- A component that is less has the smaller height. An integer has to stay bounded for that. -/
theorem height_lt_of_less (hM : M.Finitary) (hnull : ρ "null" = nil)
    (ho : Termination.order? o = some order) (hn : Termination.order? n = some order)
    (hfo : o.everIncreasing = false) (hfn : n.everIncreasing = false)
    (hso : o.Sorted old ρ) (hsn : n.Sorted old ρ)
    (hbound : order = .int → Holds old ρ (.lt n.expr o.expr) → Holds old ρ (.le (.nat 0) n.expr))
    (h : Holds old ρ (Termination.less order o.expr n.expr)) :
    M.height nil order (n.expr.eval old ρ) < M.height nil order (o.expr.eval old ρ) := by
  have hso' := hso.carrier hfo ho
  have hsn' := hsn.carrier hfn hn
  cases order with
  | bool =>
    have hboth : ¬ Holds old ρ n.expr ∧ Holds old ρ o.expr := by
      simpa [Termination.less] using h
    simp only [Holds] at hboth
    simp [Model.height, hboth.1, hboth.2]
  | int =>
    have hlt : M.toInt (n.expr.eval old ρ) < M.toInt (o.expr.eval old ρ) := by
      simpa [Termination.less] using h
    have hpos : 0 ≤ M.toInt (n.expr.eval old ρ) := by
      simpa using hbound rfl (by simpa using hlt)
    simp only [Model.height]
    omega
  | seq =>
    have hlt : M.toInt (M.app "Seq.Length" [n.expr.eval old ρ]) <
        M.toInt (M.app "Seq.Length" [o.expr.eval old ρ]) := by
      simpa [Termination.less, Prelude.seqLength] using h
    have hpos := hM.length_nonneg _ hsn'
    simp only [Model.height]
    omega
  | datatype =>
    have hlt : M.toInt (M.app "DtRank" [n.expr.eval old ρ]) <
        M.toInt (M.app "DtRank" [o.expr.eval old ρ]) := by
      simpa [Termination.less, Prelude.dtRank] using h
    have hpos := hM.rank_nonneg _ hsn'
    simp only [Model.height]
    omega
  | set =>
    have hboth : M.truth (M.app "Set.Subset" [n.expr.eval old ρ, o.expr.eval old ρ]) ∧
        ¬ M.truth (M.app "Set.Equal" [n.expr.eval old ρ, o.expr.eval old ρ]) := by
      simpa [Termination.less, Prelude.setSubset, Prelude.setEqual, holds_app] using h
    exact hM.elements_lt hso' hsn' hboth.1 hboth.2
  | multiset =>
    have hboth : M.truth (M.app "MultiSet.Subset" [n.expr.eval old ρ, o.expr.eval old ρ]) ∧
        ¬ M.truth (M.app "MultiSet.Equal" [n.expr.eval old ρ, o.expr.eval old ρ]) := by
      simpa [Termination.less, Prelude.multisetSubset, Prelude.multisetEqual, holds_app] using h
    exact hM.occurrences_lt hso' hsn' hboth.1 hboth.2
  | map =>
    have hboth : M.truth (M.app "Set.Subset" [M.app "Map.Domain" [n.expr.eval old ρ],
          M.app "Map.Domain" [o.expr.eval old ρ]]) ∧
        ¬ M.truth (M.app "Set.Equal" [M.app "Map.Domain" [n.expr.eval old ρ],
          M.app "Map.Domain" [o.expr.eval old ρ]]) := by
      simpa [Termination.less, Prelude.setSubset, Prelude.setEqual, Prelude.mapDomain,
        holds_app] using h
    exact hM.elements_lt (hM.domain_sort _ hso') (hM.domain_sort _ hsn') hboth.1 hboth.2
  | ref =>
    have hboth : n.expr.eval old ρ = nil ∧ ¬ o.expr.eval old ρ = nil := by
      simpa [Termination.less, Prelude.null, IL.Expr.ne, hnull] using h
    simp [Model.height, hboth.1, hboth.2]
  | growing =>
    cases ht : o.typ <;> simp [Termination.order?, hfo, ht] at ho

/-- A component that is unchanged has the same height. -/
theorem height_eq_of_unchanged (hM : M.Finitary)
    (ho : Termination.order? o = some order) (hn : Termination.order? n = some order)
    (hfo : o.everIncreasing = false) (hfn : n.everIncreasing = false)
    (hso : o.Sorted old ρ) (hsn : n.Sorted old ρ)
    (h : Holds old ρ (Termination.unchanged o n)) :
    M.height nil order (n.expr.eval old ρ) = M.height nil order (o.expr.eval old ρ) := by
  have hso' := hso.carrier hfo ho
  have hsn' := hsn.carrier hfn hn
  simp only [Termination.unchanged, hfo, Bool.false_eq_true, if_false] at h
  cases ht : o.typ with
  | param x => simp [Termination.order?, hfo, ht] at ho
  | set t =>
    obtain rfl : order = .set := by simpa [Termination.order?, hfo, ht] using ho.symm
    have hequal : M.truth (M.app "Set.Equal" [n.expr.eval old ρ, o.expr.eval old ρ]) := by
      simpa [ht, typedEq, Prelude.setEqual, holds_app] using h
    simp only [Model.height, (hM.set_equal _ _ hsn' hso').1 hequal]
  | multiset t =>
    obtain rfl : order = .multiset := by simpa [Termination.order?, hfo, ht] using ho.symm
    have hequal : M.truth (M.app "MultiSet.Equal" [n.expr.eval old ρ, o.expr.eval old ρ]) := by
      simpa [ht, typedEq, Prelude.multisetEqual, holds_app] using h
    simp only [Model.height, hM.occurrences_eq hso' hsn' hequal]
  | seq t =>
    obtain rfl : order = .seq := by simpa [Termination.order?, hfo, ht] using ho.symm
    have hequal : M.truth (M.app "Seq.Equal" [n.expr.eval old ρ, o.expr.eval old ρ]) := by
      simpa [ht, typedEq, Prelude.seqEqual, holds_app] using h
    rw [hM.eq_of_equal _ _ hsn' hso' hequal]
  | map k t =>
    obtain rfl : order = .map := by simpa [Termination.order?, hfo, ht] using ho.symm
    have hequal : M.truth (M.app "Map.Equal" [n.expr.eval old ρ, o.expr.eval old ρ]) := by
      simpa [ht, typedEq, Prelude.mapEqual, holds_app] using h
    simp only [Model.height, hM.map_equal _ _ hsn' hso' hequal]
  | _ =>
    have heq : n.expr.eval old ρ = o.expr.eval old ρ := by simpa [ht, typedEq] using h
    rw [heq]

/-! ## Tuples -/

/-- That a comparison ends at two components that cannot be compared, everything before them being
unchanged. -/
def StopsEarly (old ρ : M.Valuation) : List MeasureValue → List MeasureValue → Prop
  | o :: os, n :: ns => match Termination.commonOrder? o n with
    | none => True
    | some _ => Holds old ρ (Termination.unchanged o n) ∧ StopsEarly old ρ os ns
  | _, _ => False

/-- The type and the value of a component. -/
noncomputable def MeasureValue.at (old ρ : M.Valuation) (v : MeasureValue) : Typ × M.Val :=
  (v.typ, v.expr.eval old ρ)

/-- The height of a value of a type, if its values can be compared. -/
noncomputable def IL.Model.heightAt (M : Model) (nil : M.Val) (p : Typ × M.Val) : Nat :=
  match Termination.order? ⟨p.1, .tt, false⟩ with
  | some order => M.height nil order p.2
  | none => 0

theorem heightAt_eq (hgrow : o.everIncreasing = false)
    (horder : Termination.order? o = some order) :
    M.heightAt nil (o.at old ρ) = M.height nil order (o.expr.eval old ρ) := by
  have horder' : Termination.order? ⟨o.typ, .tt, false⟩ = some order := by
    simpa [Termination.order?, hgrow] using horder
  simp [Model.heightAt, MeasureValue.at, horder']

theorem orders_of_common (h : Termination.commonOrder? o n = some order) :
    Termination.order? o = some order ∧ Termination.order? n = some order := by
  unfold Termination.commonOrder? at h
  split at h
  · cases h
  · rename_i d hd
    split at h
    · rename_i hn
      cases h
      exact ⟨hd, hn⟩
    · cases h

/-- A tuple that the generated formulas call less and bounded has lower heights, in lexicographic
order, unless the comparison stops early. The heights are any for which a component that is less
goes down, provided that an integer stays bounded, and one that is unchanged stays. -/
theorem lex_of_descent {height : Typ × M.Val → Nat} {olds news : List MeasureValue}
    {before : List IL.Expr}
    (hless : ∀ o ∈ olds, ∀ n ∈ news, ∀ order, Termination.commonOrder? o n = some order →
      (order = .int → Holds old ρ (.lt n.expr o.expr) → Holds old ρ (.le (.nat 0) n.expr)) →
        Holds old ρ (Termination.less order o.expr n.expr) →
          height (n.at old ρ) < height (o.at old ρ))
    (hsame : ∀ o ∈ olds, ∀ n ∈ news, ∀ order, Termination.commonOrder? o n = some order →
      Holds old ρ (Termination.unchanged o n) → height (n.at old ρ) = height (o.at old ρ))
    (hbefore : ∀ e ∈ before, Holds old ρ e)
    (hdown : Holds old ρ (Termination.decreases false olds news))
    (hbounds : ∀ e ∈ Termination.bounds before olds news, Holds old ρ e)
    (hstop : ¬ StopsEarly old ρ olds news) :
    List.Lex (· < ·) (news.map fun n => height (n.at old ρ))
      (olds.map fun o => height (o.at old ρ)) := by
  induction olds generalizing news before with
  | nil => simp [Termination.decreases] at hdown
  | cons o olds ih =>
    cases news with
    | nil => exact .nil
    | cons n news =>
      cases hcommon : Termination.commonOrder? o n with
      | none => exact absurd (by simp [StopsEarly, hcommon]) hstop
      | some order =>
        simp only [Termination.decreases, hcommon, holds_disj, List.mem_cons, List.not_mem_nil,
          or_false, exists_eq_or_imp, exists_eq_left, holds_conj, forall_eq_or_imp,
          forall_eq] at hdown
        simp only [Termination.bounds, hcommon, List.mem_append] at hbounds
        simp only [StopsEarly, hcommon, not_and] at hstop
        have ho : o ∈ o :: olds := List.mem_cons_self ..
        have hn : n ∈ n :: news := List.mem_cons_self ..
        rcases hdown with hlt | ⟨hunchanged, hrest⟩
        · refine .rel (hless o ho n hn order hcommon ?_ hlt)
          rintro rfl hlt
          have hbound := hbounds _ (.inl (List.mem_singleton.2 rfl))
          refine (holds_imp _ _).1 hbound ((holds_conj _).2 fun e he => ?_)
          rcases List.mem_append.1 he with he | he
          · exact hbefore e he
          · obtain rfl := List.mem_singleton.1 he
            exact hlt
        · rw [List.map_cons, List.map_cons, hsame o ho n hn order hcommon hunchanged]
          have hbefore' : ∀ e ∈ before ++ [Termination.unchanged o n], Holds old ρ e := by
            intro e he
            rcases List.mem_append.1 he with he | he
            · exact hbefore e he
            · obtain rfl := List.mem_singleton.1 he
              exact hunchanged
          refine .cons (ih ?_ ?_ hbefore' hrest (fun e he => hbounds e (.inr he))
            (hstop hunchanged))
          · exact fun o' ho' n' hn' =>
              hless o' (List.mem_cons_of_mem _ ho') n' (List.mem_cons_of_mem _ hn')
          · exact fun o' ho' n' hn' =>
              hsame o' (List.mem_cons_of_mem _ ho') n' (List.mem_cons_of_mem _ hn')

theorem lex_of_goesDown {olds news : List MeasureValue} {before : List IL.Expr}
    (hM : M.Finitary) (hnull : ρ "null" = nil)
    (holds : ∀ o ∈ olds, o.everIncreasing = false ∧ o.Sorted old ρ)
    (hnews : ∀ n ∈ news, n.everIncreasing = false ∧ n.Sorted old ρ)
    (hbefore : ∀ e ∈ before, Holds old ρ e)
    (hdown : Holds old ρ (Termination.decreases false olds news))
    (hbounds : ∀ e ∈ Termination.bounds before olds news, Holds old ρ e)
    (hstop : ¬ StopsEarly old ρ olds news) :
    List.Lex (· < ·) (news.map fun n => M.heightAt nil (n.at old ρ))
      (olds.map fun o => M.heightAt nil (o.at old ρ)) := by
  refine lex_of_descent ?_ ?_ hbefore hdown hbounds hstop
  · intro o ho n hn order hcommon hbound hless
    obtain ⟨hfo, hso⟩ := holds o ho
    obtain ⟨hfn, hsn⟩ := hnews n hn
    obtain ⟨ho, hn⟩ := orders_of_common hcommon
    rw [heightAt_eq hfo ho, heightAt_eq hfn hn]
    exact height_lt_of_less hM hnull ho hn hfo hfn hso hsn hbound hless
  · intro o ho n hn order hcommon hsame
    obtain ⟨hfo, hso⟩ := holds o ho
    obtain ⟨hfn, hsn⟩ := hnews n hn
    obtain ⟨ho, hn⟩ := orders_of_common hcommon
    rw [heightAt_eq hfo ho, heightAt_eq hfn hn]
    exact height_eq_of_unchanged hM ho hn hfo hfn hso hsn hsame

/-- Lists of bounded length do not go down forever. -/
theorem lex_wf (bound : Nat) : WellFounded fun l' l : List Nat =>
    l'.length ≤ bound ∧ l.length ≤ bound ∧ List.Lex (· < ·) l' l := by
  induction bound with
  | zero =>
    refine ⟨fun l => ⟨l, fun l' h => ?_⟩⟩
    obtain ⟨-, hl, hlex⟩ := h
    obtain rfl := List.length_eq_zero_iff.1 (Nat.le_zero.1 hl)
    exact nomatch hlex
  | succ bound ih =>
    -- A missing head counts as less than any head.
    refine Subrelation.wf (fun {l' l} h => ?_)
      (InvImage.wf (fun l : List Nat => ((l.head?.map Nat.succ).getD 0, l.tail))
        (wellFounded_lt.prod_lex ih))
    obtain ⟨hl', hl, hlex⟩ := h
    cases hlex with
    | nil => exact .left _ _ (by simp)
    | rel h => exact .left _ _ (by simpa using h)
    | cons h => exact .right _ ⟨by simpa using hl', by simpa using hl, h⟩

/-! ## Recursion -/

/-- The measure of a function or method. -/
def Context.HasMeasure (c : Context) (p : Path) (m : Measure) : Prop :=
  (∃ f ∈ c.functions, f.name = p ∧ m = .ofMember f.decreases f.span f.params) ∨
    ∃ f ∈ c.methods, f.name = p ∧ m = .ofMember f.decreases f.span f.ins

/-- The components of the measure of a member are expressions. -/
theorem Context.HasMeasure.expr {c : Context} {p : Path} {m : Measure} (h : c.HasMeasure p m) :
    ∀ x ∈ m.exprs, ∃ e, x = .expr e := by
  have hmember : ∀ d span params, ∀ x ∈ (Measure.ofMember d span params).exprs,
      ∃ e, x = .expr e := by
    intro d span params x hx
    cases d with
    | none =>
      obtain ⟨b, -, rfl⟩ := List.mem_map.1 hx
      exact ⟨_, rfl⟩
    | some d =>
      obtain ⟨e, -, rfl⟩ := List.mem_map.1 hx
      exact ⟨e, rfl⟩
  rcases h with ⟨f, -, -, rfl⟩ | ⟨f, -, -, rfl⟩
  · exact hmember _ _ _
  · exact hmember _ _ _

theorem exists_bound {α : Type} (f : α → Nat) (l : List α) : ∃ bound, ∀ a ∈ l, f a ≤ bound := by
  induction l with
  | nil => exact ⟨0, nofun⟩
  | cons a l ih =>
    obtain ⟨bound, h⟩ := ih
    refine ⟨f a + bound, fun b hb => ?_⟩
    rcases List.mem_cons.1 hb with rfl | hb
    · omega
    · have := h b hb
      omega

/-- The call graph of a program is that of its members and their calls. -/
theorem Context.calls_ofProgram {program : Source.Program} {options : Options} {c : Context}
    (h : Context.ofProgram program options = .ok c) :
    c.calls = .ofCalls c.members c.callEdges := by
  simp only [Context.ofProgram] at h
  cases hother : (program.flatMap (·.decls)).foldlM Context.addOther { options } with
  | error m => simp [hother, bind, Except.bind] at h
  | ok c₁ =>
    cases hcls : ((program.flatMap (·.decls)).filterMap Context.classOf?).foldlM
        Context.addClass c₁ with
    | error m => simp [hother, hcls, bind, Except.bind] at h
    | ok c₂ =>
      simp only [hother, hcls, bind, Except.bind, pure, Except.pure, Except.ok.injEq] at h
      subst h
      rfl

/-- The measures of a program have bounded length. -/
theorem Context.exists_measure_bound (c : Context) :
    ∃ bound, ∀ p m, c.HasMeasure p m → m.exprs.length ≤ bound := by
  obtain ⟨b₁, h₁⟩ := exists_bound
    (fun f : Function => (Measure.ofMember f.decreases f.span f.params).exprs.length) c.functions
  obtain ⟨b₂, h₂⟩ := exists_bound
    (fun f : Method => (Measure.ofMember f.decreases f.span f.ins).exprs.length) c.methods
  refine ⟨b₁ + b₂, ?_⟩
  rintro p m (⟨f, hf, -, rfl⟩ | ⟨f, hf, -, rfl⟩)
  · have := h₁ f hf
    omega
  · have := h₂ f hf
    omega

/-- A call as its obligations see it: the code it stands in, what it binds the callee's parameters
to, and the state in which it is made. -/
structure CallSite (M : Model) where
  env : Env
  view : View
  entry : Termination.Entry
  bindings : List (String × IL.Expr)
  span : Span
  old : M.Valuation
  state : M.Valuation

/-- An infinite chain of calls inside a component of members without `decreases *`. The measure on
entry to a member is the measure at the arguments of the call that led to it, and `null` has its
value `nil` wherever a call is made. -/
structure Recursion (c : Context) (M : Model) (nil : M.Val) where
  member : Nat → Path
  measure : Nat → Measure
  call : Nat → CallSite M
  /-- The measure at the arguments of a call. -/
  news : Nat → List MeasureValue
  hasMeasure : ∀ i, c.HasMeasure (member i) (measure i)
  limited : ∀ i, (measure i).wildcard = false
  calls : ∀ i, (member i, member (i + 1)) ∈ c.callEdges
  inside : ∀ i, c.calls.inSameComponent (member i) (member (i + 1)) = true
  context : ∀ i, (call i).env.context = c
  current : ∀ i, (call i).entry.current = member i
  wildcard : ∀ i, (call i).entry.wildcard = (measure i).wildcard
  growing : ∀ i, ∀ o ∈ (call i).entry.olds, o.everIncreasing = false
  null : ∀ i, (call i).state "null" = nil
  sorted : ∀ i, ∀ o ∈ (call i).entry.olds, o.Sorted (call i).old (call i).state
  atArguments : ∀ i, ∃ vs, (Termination.values (call i).view (measure (i + 1))).Returns
    (call i).env vs ∧ news i = Termination.bindValues (call i).bindings vs
  onEntry : ∀ i, (call (i + 1)).entry.olds.map (·.at (call (i + 1)).old (call (i + 1)).state) =
    (news i).map (·.at (call i).old (call i).state)

namespace Recursion

variable {c : Context} (r : Recursion c M nil)

/-- That the obligations of every call are true in the state of the call. -/
def Checked : Prop :=
  ∀ i, ∃ checks, (Termination.callChecks (r.call i).view (r.call i).entry (r.member (i + 1))
    (r.measure (i + 1)) (r.call i).bindings (r.call i).span).Returns (r.call i).env checks ∧
      ∀ check ∈ checks, Holds (r.call i).old (r.call i).state check.1

/-- The heights of the measure on entry to a member. -/
noncomputable def heights (i : Nat) : List Nat :=
  (r.call i).entry.olds.map fun o => M.heightAt nil (o.at (r.call i).old (r.call i).state)

theorem heights_succ (i : Nat) : r.heights (i + 1) =
    (r.news i).map fun n => M.heightAt nil (n.at (r.call i).old (r.call i).state) := by
  have h := congrArg (List.map (M.heightAt nil)) (r.onEntry i)
  simpa only [heights, List.map_map, Function.comp_def] using h

theorem values_typed {v : View} {env : Env} {m : Measure} {vs : List MeasureValue} {p : Path}
    (hm : c.HasMeasure p m) (h : (Termination.values v m).Returns env vs) :
    vs.length = m.exprs.length ∧ ∀ x ∈ vs, x.everIncreasing = false := by
  rw [Termination.values, ExprM.returns_mapM] at h
  refine ⟨h.length_eq.symm, ?_⟩
  have hexpr := hm.expr
  generalize m.exprs = es at h hexpr
  induction h with
  | nil => simp
  | @cons a b l₁ l₂ hx _ ih =>
    intro x hmem
    rcases List.mem_cons.1 hmem with rfl | hmem
    · obtain ⟨e, rfl⟩ := hexpr a (by simp)
      simp only [ExprM.returns_bind, ExprM.returns_pure] at hx
      obtain ⟨a, -, rfl⟩ := hx
      rfl
    · exact ih (fun y hy => hexpr y (by simp [hy])) x hmem

theorem news_typed (i : Nat) : (r.news i).length = (r.measure (i + 1)).exprs.length ∧
    ∀ n ∈ r.news i, n.everIncreasing = false := by
  obtain ⟨vs, hvs, hnews⟩ := r.atArguments i
  obtain ⟨hlength, hgrow⟩ := values_typed (r.hasMeasure (i + 1)) hvs
  rw [hnews, Termination.bindValues]
  refine ⟨by simpa using hlength, fun n hn => ?_⟩
  obtain ⟨x, hx, rfl⟩ := List.mem_map.1 hn
  exact hgrow x hx

/-- The values that the callee's measure takes at the arguments are those on entry to the callee,
so they have the sorts of their types. -/
theorem news_sorted (i : Nat) : ∀ n ∈ r.news i, n.Sorted (r.call i).old (r.call i).state := by
  intro n hn
  have hmem := List.mem_map_of_mem (f := (·.at (r.call i).old (r.call i).state)) hn
  rw [← r.onEntry i] at hmem
  obtain ⟨o, ho, heq⟩ := List.mem_map.1 hmem
  have hsorted := r.sorted (i + 1) o ho
  simp only [MeasureValue.at, Prod.mk.injEq] at heq
  simpa only [MeasureValue.Sorted, heq.1, heq.2] using hsorted

theorem goesDown {r : Recursion c M nil} (hc : c.calls = .ofCalls c.members c.callEdges)
    (h : r.Checked) (i : Nat) :
    Holds (r.call i).old (r.call i).state
        (Termination.decreases false (r.call i).entry.olds (r.news i)) ∧
      ∀ e ∈ Termination.bounds [] (r.call i).entry.olds (r.news i),
        Holds (r.call i).old (r.call i).state e := by
  obtain ⟨checks, hchecks, hholds⟩ := h i
  obtain ⟨vs, hvs, hnews⟩ := r.atArguments i
  have hrecursive : c.calls.isRecursive (r.member (i + 1)) = true := by
    have hinside := r.inside i
    rw [hc] at hinside ⊢
    exact CallGraph.isRecursive_of_call (r.calls i) hinside
  simp only [Termination.callChecks, ExprM.returns_bind, ExprM.returns_inSameComponent,
    ExprM.returns_isRecursive, r.context i, r.current i, r.wildcard i, r.limited i, r.inside i,
    hrecursive, exists_eq_left, Bool.not_true, Bool.or_false, Bool.false_eq_true,
    if_false, ExprM.returns_pure] at hchecks
  obtain ⟨vs', hvs', rfl⟩ := hchecks
  obtain rfl := hvs.unique hvs'
  rw [← hnews] at hholds
  refine ⟨hholds _ (List.mem_cons_self ..), fun e he => ?_⟩
  cases hb : Termination.bounds [] (r.call i).entry.olds (r.news i) with
  | nil => simp [hb] at he
  | cons b bs =>
    have hall := hholds (.conj (b :: bs), .error "decreases expression must be bounded below by 0"
      (r.call i).span) (by simp [Termination.bounded?, hb])
    exact (holds_conj _).1 hall e (hb ▸ he)

end Recursion

/-- In an infinite recursion whose termination obligations all hold, comparisons stop early again
and again: whatever the number and types of the components are, no chain of calls goes on forever
if from some call on every comparison is decided before a pair of components that cannot be
compared. -/
theorem stopsEarly_of_recursion {program : Source.Program} {options : Options} {c : Context}
    (hc : Context.ofProgram program options = .ok c) (hM : M.Finitary)
    (r : Recursion c M nil) (hchecked : r.Checked) (start : Nat) :
    ∃ i ≥ start, StopsEarly (r.call i).old (r.call i).state (r.call i).entry.olds (r.news i) := by
  have hedges : c.calls = .ofCalls c.members c.callEdges := Context.calls_ofProgram hc
  by_contra hnever
  push Not at hnever
  obtain ⟨bound, hbound⟩ := c.exists_measure_bound
  have hlength : ∀ i, (r.heights (i + 1)).length ≤ bound := by
    intro i
    rw [r.heights_succ, List.length_map, (r.news_typed i).1]
    exact hbound _ _ (r.hasMeasure (i + 1))
  have hstep : ∀ i ≥ start, List.Lex (· < ·) (r.heights (i + 1)) (r.heights i) := by
    intro i hi
    obtain ⟨hdown, hbounds⟩ := Recursion.goesDown hedges hchecked i
    rw [r.heights_succ]
    exact lex_of_goesDown hM (r.null i) (fun o ho => ⟨r.growing i o ho, r.sorted i o ho⟩)
      (fun n hn => ⟨(r.news_typed i).2 n hn, r.news_sorted i n hn⟩) (by simp) hdown hbounds
      (hnever i hi)
  obtain ⟨l, ⟨k, rfl⟩, hmin⟩ := (lex_wf bound).has_min
    (Set.range fun k => r.heights (start + k + 1)) ⟨_, 0, rfl⟩
  exact hmin _ ⟨k + 1, rfl⟩ ⟨hlength _, hlength _, hstep (start + k + 1) (by omega)⟩

namespace Endless

/-- A function of a generic value that calls itself with that value. -/
def self : Path := ⟨"M", ["C", "f"]⟩

def x : Source.Expr := .mkVar default "x" (.param "T")

def decreases : Decreases := ⟨default, [x], false⟩

def function : Function where
  name := self
  span := default
  owner := none
  typParams := ["T"]
  params := [("x", .param "T")]
  result := ("r", .bool)
  requires := []
  reads := []
  ensures := []
  decreases := some decreases
  body := some (.call ⟨default, .bool⟩ self none [x])
  isHidden := false
  refinement := {}

def cls : Source.Class := ⟨⟨"M", ["C"]⟩, default, [], [], [function], []⟩

def context : Context :=
  { classes := [cls], functions := [function], calls := .ofCalls [self] [(self, self)] }

theorem ofProgram_eq : Context.ofProgram [⟨"M", [.cls cls]⟩] {} = .ok context := rfl

theorem isRecursive : context.calls.isRecursive self = true :=
  CallGraph.isRecursive_ofCalls.2 (.single (by simp))

/-- Sorts other than those of Booleans and integers have one value, collections are empty. -/
def model : Model where
  Val := Prop ⊕ Int
  ofProp := .inl
  truth := Sum.elim id fun _ => False
  truth_ofProp _ := Iff.rfl
  ofInt := .inr
  toInt := Sum.elim (fun _ => 0) id
  toInt_ofInt _ := rfl
  carrier
    | .bool => fun a => ∃ p, a = .inl p
    | .int => fun a => ∃ n, a = .inr n
    | _ => fun a => a = .inr 0
  carrier_bool _ := Iff.rfl
  carrier_int _ := Iff.rfl
  app f _ :=
    if f ∈ ["Set.Subset", "Set.Equal", "MultiSet.Subset", "MultiSet.Equal"] then .inl True
    else .inr 0
  lam _ := .inr 0
  applyLam _ _ _ := .inr 0
  divZero := id
  modZero := id

theorem elements_eq (s : model.Val) : model.elements s = ∅ := by
  refine Set.eq_empty_of_forall_notMem fun b hb => ?_
  exact hb.2

theorem count_eq (s b : model.Val) : model.count s b = 0 := rfl

theorem finitary : model.Finitary where
  rank_nonneg _ _ := Int.le_refl 0
  length_nonneg _ _ := Int.le_refl 0
  eq_of_equal _ _ hs ht _ := Eq.trans hs (Eq.symm ht)
  set_finite s _ := by simp [elements_eq]
  set_subset s t _ _ := by
    simp only [elements_eq, Set.Subset.refl, iff_true]
    exact trivial
  set_equal s t _ _ := by
    simp only [elements_eq, iff_true]
    exact trivial
  multiset_finite s _ := by
    refine Set.Finite.subset Set.finite_empty fun p hp => ?_
    have hlt := hp.2
    rw [count_eq] at hlt
    omega
  count_nonneg s b _ := (count_eq s b).ge
  multiset_subset s t _ _ := by
    simp only [count_eq, le_refl, implies_true, iff_true]
    exact trivial
  multiset_equal s t _ _ := by
    simp only [count_eq, implies_true, iff_true]
    exact trivial
  domain_sort _ _ := rfl
  map_equal m n _ _ _ := by simp only [elements_eq]

def zeros : model.Valuation := fun _ => .inr 0

def olds : List MeasureValue := [⟨.param "T", .var "x", false⟩]

/-- The call in the body, made with the value on entry. -/
def site : CallSite model where
  env := { context }
  view := { heap := .var "$Heap", oldHeap := .old "$Heap" }
  entry := ⟨self, olds, false, false⟩
  bindings := [("x", .var "x")]
  span := default
  old := zeros
  state := zeros

def recursion : Recursion context model (.inr 0) where
  member _ := self
  measure _ := .explicit decreases
  call _ := site
  news _ := Termination.bindValues site.bindings olds
  hasMeasure _ := .inl ⟨function, by simp [context], rfl, rfl⟩
  limited _ := rfl
  calls _ := List.mem_singleton.2 rfl
  inside _ := by simp [CallGraph.inSameComponent]
  context _ := rfl
  current _ := rfl
  wildcard _ := rfl
  growing _ o ho := by
    obtain rfl := List.mem_singleton.1 ho
    rfl
  null _ := rfl
  sorted _ o ho := by
    obtain rfl := List.mem_singleton.1 ho
    rfl
  atArguments _ := ⟨olds, rfl, rfl⟩
  onEntry _ := rfl

theorem checked : recursion.Checked := by
  intro i
  refine ⟨[(.tt, Termination.message default false)], ?_, ?_⟩
  · simp only [Termination.callChecks, ExprM.returns_bind, ExprM.returns_inSameComponent,
      ExprM.returns_isRecursive, exists_eq_left]
    rw [show (recursion.call i).env.context.calls.isRecursive (recursion.member (i + 1)) = true
      from isRecursive]
    rfl
  · intro check hcheck
    obtain rfl := List.mem_singleton.1 hcheck
    simp

end Endless

/-- A member whose measure is a value of a type parameter calls itself forever, with all its
obligations true: values of type parameters cannot be compared. -/
theorem endless_on_type_parameter : ∃ (c : Context) (M : Model) (nil : M.Val)
    (r : Recursion c M nil), Context.ofProgram [⟨"M", [.cls Endless.cls]⟩] {} = .ok c ∧
      M.Finitary ∧ r.Checked :=
  ⟨_, _, _, Endless.recursion, Endless.ofProgram_eq, Endless.finitary, Endless.checked⟩

theorem stopsEarly_of_recursion_type_parameter : ∃ i ≥ 3,
    StopsEarly (Endless.recursion.call i).old (Endless.recursion.call i).state
      (Endless.recursion.call i).entry.olds (Endless.recursion.news i) :=
  stopsEarly_of_recursion Endless.ofProgram_eq Endless.finitary Endless.recursion Endless.checked 3

end ContractLowering
