import ContractLowering.Proofs.Prelude.Collections
import Mathlib

/-!
# Measures of loops

At the beginning of an iteration the values of the loop's measure are stored, and at its end the
generated formula compares the values there with them. In a model of the prelude the formula
compares values component by component: in the order of its type one is below another
(`Model.Below`), or they are the same (`Model.Same`). So its truth depends on the values only
(`holds_decreases_iff`).

That a value is below or the same composes, which makes the invariant that every loop assumes of
its measure inductive (`measure_invariant`). Without components that cannot be compared, with
finite collections, and with no component that counts up, every iteration lowers the heights of the
components in lexicographic order, so that a loop with true checks ends (`loop_wf`).
-/

namespace ContractLowering

open IL Source

variable {M : Model}

namespace IL.Model

/-! ## Orders of values -/

/-- A value is below another one in an order. `nil` is the null reference. -/
def Below (M : Model) (nil : M.Val) : Termination.Order → M.Val → M.Val → Prop
  | .bool, a, b => ¬ M.truth a ∧ M.truth b
  | .int, a, b => M.toInt a < M.toInt b
  | .seq, a, b => M.toInt (M.app "Seq.Length" [a]) < M.toInt (M.app "Seq.Length" [b])
  | .datatype, a, b => M.toInt (M.app "DtRank" [a]) < M.toInt (M.app "DtRank" [b])
  | .set, a, b => M.elements a ⊂ M.elements b
  | .multiset, a, b => (∀ x, M.carrier Prelude.boxSort x → M.count a x ≤ M.count b x) ∧
      ¬ ∀ x, M.carrier Prelude.boxSort x → M.count a x = M.count b x
  | .map, a, b => M.elements (M.app "Map.Domain" [a]) ⊂ M.elements (M.app "Map.Domain" [b])
  | .ref, a, b => a = nil ∧ b ≠ nil
  | .growing, a, b => M.toInt b < M.toInt a

/-- A value is the same as another one where an order compares them. -/
def Same (M : Model) : Termination.Order → M.Val → M.Val → Prop
  | .set, a, b => M.elements a = M.elements b
  | .multiset, a, b => ∀ x, M.carrier Prelude.boxSort x → M.count a x = M.count b x
  | _, a, b => a = b

variable {nil a b c : M.Val} {order : Termination.Order}

theorem Same.refl (order : Termination.Order) (a : M.Val) : M.Same order a a := by
  cases order with
  | multiset => exact fun _ _ => rfl
  | _ => exact Eq.refl _

theorem Same.trans (h : M.Same order a b) (h' : M.Same order b c) : M.Same order a c := by
  cases order with
  | multiset => exact fun x hx => (h x hx).trans (h' x hx)
  | _ => exact Eq.trans h h'

theorem Below.trans (h : M.Below nil order a b) (h' : M.Below nil order b c) :
    M.Below nil order a c := by
  cases order with
  | bool => exact absurd h.2 h'.1
  | int | seq | datatype => exact Int.lt_trans h h'
  | set | map => exact LT.lt.trans h h'
  | multiset =>
    refine ⟨fun x hx => (h.1 x hx).trans (h'.1 x hx), fun heq => h.2 fun x hx => ?_⟩
    exact le_antisymm (h.1 x hx) ((h'.1 x hx).trans (heq x hx).ge)
  | ref => exact absurd h'.1 h.2
  | growing => exact Int.lt_trans h' h

theorem Below.of_same_right (h : M.Below nil order a b) (h' : M.Same order b c) :
    M.Below nil order a c := by
  cases order with
  | set => exact LT.lt.trans_eq h h'
  | multiset =>
    refine ⟨fun x hx => (h.1 x hx).trans_eq (h' x hx), fun heq => h.2 fun x hx => ?_⟩
    exact (heq x hx).trans (h' x hx).symm
  | _ => exact Eq.subst h' h

theorem Below.of_same_left (h : M.Same order a b) (h' : M.Below nil order b c) :
    M.Below nil order a c := by
  cases order with
  | set => exact h.trans_ssubset h'
  | multiset =>
    refine ⟨fun x hx => (h x hx).trans_le (h'.1 x hx), fun heq => h'.2 fun x hx => ?_⟩
    exact (h x hx).symm.trans (heq x hx)
  | _ => exact Eq.substr h h'

end IL.Model

/-! ## Comparing components -/

variable {old ρ : M.Valuation} {nil : M.Val} {order : Termination.Order}

/-- The generated formula says that a value is below another one. -/
theorem holds_less_iff {o n : IL.Expr} (hM : M.Collections) (hnull : ρ "null" = nil)
    (ho : M.carrier order.sort (o.eval old ρ)) (hn : M.carrier order.sort (n.eval old ρ)) :
    Holds old ρ (Termination.less order o n) ↔
      M.Below nil order (n.eval old ρ) (o.eval old ρ) := by
  cases order with
  | bool =>
    simp only [Termination.less, holds_conj, List.forall_mem_cons, holds_neg]
    simp [Model.Below, Holds]
  | int | growing => simp [Termination.less, Model.Below]
  | seq => simp [Termination.less, Prelude.seqLength, Model.Below]
  | datatype => simp [Termination.less, Prelude.dtRank, Model.Below]
  | set =>
    simp [Termination.less, Prelude.setSubset, Prelude.setEqual, holds_app, Model.Below,
      hM.set_subset _ _ hn ho, hM.set_equal _ _ hn ho, ssubset_iff_subset_ne]
  | multiset =>
    simp [Termination.less, Prelude.multisetSubset, Prelude.multisetEqual, holds_app, Model.Below,
      hM.multiset_subset _ _ hn ho, hM.multiset_equal _ _ hn ho]
  | map =>
    have hdo := hM.domain_sort _ ho
    have hdn := hM.domain_sort _ hn
    simp [Termination.less, Prelude.setSubset, Prelude.setEqual, Prelude.mapDomain, holds_app,
      Model.Below, hM.set_subset _ _ hdn hdo, hM.set_equal _ _ hdn hdo, ssubset_iff_subset_ne]
  | ref => simp [Termination.less, Prelude.null, IL.Expr.ne, Model.Below, hnull]

/-- The generated formula says that a component is the same. -/
theorem holds_unchanged_iff {o n : MeasureValue} (hM : M.Collections)
    (horder : Termination.order? o = some order)
    (ho : M.carrier order.sort (o.expr.eval old ρ))
    (hn : M.carrier order.sort (n.expr.eval old ρ)) :
    Holds old ρ (Termination.unchanged o n) ↔
      M.Same order (n.expr.eval old ρ) (o.expr.eval old ρ) := by
  unfold Termination.unchanged
  cases hgrows : o.everIncreasing with
  | true =>
    obtain rfl : .growing = order := by simpa [Termination.order?, hgrows] using horder
    simp [Model.Same, eq_comm]
  | false =>
    simp only [Bool.false_eq_true, if_false]
    cases ht : o.typ with
    | param p => simp [Termination.order?, hgrows, ht] at horder
    | set t =>
      obtain rfl : .set = order := by simpa [Termination.order?, hgrows, ht] using horder
      simp [typedEq, Prelude.setEqual, holds_app, Model.Same, hM.set_equal _ _ hn ho]
    | multiset t =>
      obtain rfl : .multiset = order := by simpa [Termination.order?, hgrows, ht] using horder
      simp [typedEq, Prelude.multisetEqual, holds_app, Model.Same, hM.multiset_equal _ _ hn ho]
    | seq t =>
      obtain rfl : .seq = order := by simpa [Termination.order?, hgrows, ht] using horder
      simp [typedEq, Prelude.seqEqual, holds_app, Model.Same, hM.seq_equal _ _ hn ho]
    | map k t =>
      obtain rfl : .map = order := by simpa [Termination.order?, hgrows, ht] using horder
      simp [typedEq, Prelude.mapEqual, holds_app, Model.Same, hM.map_equal _ _ hn ho]
    | _ =>
      simp only [Termination.order?, hgrows, ht, Bool.false_eq_true, if_false,
        Option.some.injEq] at horder
      subst horder
      simp [typedEq, Model.Same]

/-! ## Values of a measure -/

namespace Source.MeasureExpr

/-- The type of a component. -/
def typ : MeasureExpr → Typ
  | .expr e => e.typ
  | .yields _ => .int

/-- Whether a component counts up. -/
def grows : MeasureExpr → Bool
  | .expr _ => false
  | .yields _ => true

/-- The order a component is compared in, or `none` if it cannot be compared. -/
def order? (x : MeasureExpr) : Option Termination.Order := Termination.order? ⟨x.typ, .tt, x.grows⟩

end Source.MeasureExpr

/-- That an expression stands for a value of a component of a measure. -/
structure MeasureValue.Of (old ρ : M.Valuation) (x : MeasureExpr) (v : MeasureValue) : Prop where
  typ : v.typ = x.typ
  grows : v.everIncreasing = x.grows
  sorted : v.Sorted old ρ

namespace MeasureValue.Of

variable {x : MeasureExpr} {v o n : MeasureValue}

theorem order?_eq (h : MeasureValue.Of old ρ x v) : Termination.order? v = x.order? := by
  unfold MeasureExpr.order? Termination.order?
  rw [h.typ, h.grows]

theorem commonOrder?_eq (ho : MeasureValue.Of old ρ x o) (hn : MeasureValue.Of old ρ x n) :
    Termination.commonOrder? o n = x.order? := by
  unfold Termination.commonOrder?
  rw [ho.order?_eq, hn.order?_eq]
  cases x.order? with
  | none => rfl
  | some order => exact if_pos rfl

theorem carrier (h : MeasureValue.Of old ρ x v) (horder : x.order? = some order) :
    M.carrier order.sort (v.expr.eval old ρ) := by
  cases x with
  | expr e => exact h.sorted.carrier h.grows (h.order?_eq.trans horder)
  | yields counter =>
    obtain rfl : Termination.Order.growing = order := Option.some.inj horder
    have hsorted : M.carrier v.typ.sort (v.expr.eval old ρ) := h.sorted
    rw [h.typ] at hsorted
    exact hsorted

end MeasureValue.Of

/-- That expressions stand for values of the components of a measure, in a state. -/
abbrev Source.Measure.HasValues (m : Measure) (old ρ : M.Valuation) (vs : List MeasureValue)
    (as : List M.Val) : Prop :=
  List.Forall₂ (MeasureValue.Of old ρ) m.exprs vs ∧ vs.map (·.expr.eval old ρ) = as

/-- A tuple of values is below another one in lexicographic order, or the same if that is
allowed. At components that cannot be compared the comparison ends in favour of the new tuple. -/
def IL.Model.Lex (M : Model) (nil : M.Val) (allowSame : Prop) :
    List MeasureExpr → List M.Val → List M.Val → Prop
  | x :: xs, a :: as, b :: bs => match x.order? with
    | none => True
    | some order => M.Below nil order a b ∨ M.Same order a b ∧ M.Lex nil allowSame xs as bs
  | _, _, _ => allowSame

/-- The generated comparison of two tuples depends on their values only. -/
theorem holds_decreases_iff (hM : M.Collections) (hnull : ρ "null" = nil) {allowEqual : Bool}
    {xs : List MeasureExpr} {olds news : List MeasureValue}
    (holds : List.Forall₂ (MeasureValue.Of old ρ) xs olds)
    (hnews : List.Forall₂ (MeasureValue.Of old ρ) xs news) :
    Holds old ρ (Termination.decreases allowEqual olds news) ↔
      M.Lex nil (allowEqual = true) xs (news.map (·.expr.eval old ρ))
        (olds.map (·.expr.eval old ρ)) := by
  induction holds generalizing news with
  | nil =>
    cases hnews
    simp [Termination.decreases, Model.Lex]
  | @cons x o xs olds ho _ ih =>
    obtain _ | ⟨hn, hnews⟩ := hnews
    simp only [Termination.decreases, ho.commonOrder?_eq hn, List.map_cons, Model.Lex]
    cases horder : x.order? with
    | none => simp
    | some order =>
      simp [holds_less_iff hM hnull (ho.carrier horder) (hn.carrier horder),
        holds_unchanged_iff hM (ho.order?_eq.trans horder) (ho.carrier horder)
          (hn.carrier horder), ih hnews]

namespace IL.Model

variable {xs : List MeasureExpr} {as bs cs : List M.Val} {p : Prop}

theorem Lex.refl (nil : M.Val) (xs : List MeasureExpr) (as : List M.Val) :
    M.Lex nil True xs as as := by
  induction xs generalizing as with
  | nil => trivial
  | cons x xs ih =>
    cases as with
    | nil => trivial
    | cons a as =>
      unfold Lex
      split
      · trivial
      · exact .inr ⟨.refl _ a, ih as⟩

theorem Lex.mono {q : Prop} (hpq : p → q) (h : M.Lex nil p xs as bs) : M.Lex nil q xs as bs := by
  induction xs generalizing as bs with
  | nil => exact hpq h
  | cons x xs ih =>
    cases as with
    | nil => exact hpq h
    | cons a as =>
      cases bs with
      | nil => exact hpq h
      | cons b bs =>
        unfold Lex at h ⊢
        split
        · trivial
        · rename_i order horder
          rw [horder] at h
          exact h.imp id fun hsame => ⟨hsame.1, ih hsame.2⟩

/-- A tuple below one that is below a third one, or the same, is below the third one. -/
theorem Lex.trans (ha : as.length = xs.length) (hb : bs.length = xs.length)
    (hc : cs.length = xs.length) (h : M.Lex nil p xs as bs) (h' : M.Lex nil True xs bs cs) :
    M.Lex nil p xs as cs := by
  induction xs generalizing as bs cs with
  | nil => cases as <;> cases bs <;> cases cs <;> simp_all [Lex]
  | cons x xs ih =>
    obtain ⟨a, as, rfl⟩ := List.exists_cons_of_length_eq_add_one ha
    obtain ⟨b, bs, rfl⟩ := List.exists_cons_of_length_eq_add_one hb
    obtain ⟨c, cs, rfl⟩ := List.exists_cons_of_length_eq_add_one hc
    simp only [List.length_cons, Nat.add_right_cancel_iff] at ha hb hc
    unfold Lex at h h' ⊢
    cases horder : x.order? with
    | none => trivial
    | some order =>
      simp only [horder] at h h' ⊢
      rcases h, h' with ⟨hlt | ⟨hsame, hrest⟩, hlt' | ⟨hsame', hrest'⟩⟩
      · exact .inl (hlt.trans hlt')
      · exact .inl (hlt.of_same_right hsame')
      · exact .inl (.of_same_left hsame hlt')
      · exact .inr ⟨hsame.trans hsame', ih ha hb hc hrest hrest'⟩

end IL.Model

/-! ## The invariant of the measure -/

/-- A state of a program in a model of the prelude, where `null` has its value. -/
structure IL.Model.PreludeState {M : Model} (nil : M.Val) (old ρ : M.Valuation) : Prop
    extends Model.SatisfiesPrelude old ρ where
  null : ρ "null" = nil

theorem IL.Model.PreludeState.holds_decreases_iff (h : Model.PreludeState nil old ρ)
    {allowEqual : Bool} {m : Measure} {olds news : List MeasureValue} {as bs : List M.Val}
    (hold : m.HasValues old ρ olds as) (hnew : m.HasValues old ρ news bs) :
    Holds old ρ (Termination.decreases allowEqual olds news) ↔
      M.Lex nil (allowEqual = true) m.exprs bs as := by
  obtain ⟨hold, rfl⟩ := hold
  obtain ⟨hnew, rfl⟩ := hnew
  exact ContractLowering.holds_decreases_iff
    (Prelude.collections_of_prelude h.toSatisfiesPrelude) h.null hold hnew

theorem Source.Measure.HasValues.length {m : Measure} {vs : List MeasureValue} {as : List M.Val}
    (h : m.HasValues old ρ vs as) : as.length = m.exprs.length := by
  rw [← h.2, List.length_map, h.1.length_eq]

/-- A true check at the end of an iteration compares the tuples. -/
theorem holds_decreases_of_loopCheck {m : Measure} {olds news : List MeasureValue}
    (h : Holds old ρ (Termination.loopCheck m olds news)) :
    Holds old ρ (Termination.decreases m.wildcard olds news) := by
  unfold Termination.loopCheck at h
  split at h
  · split at h
    · exact h
    · exact (holds_conj _).1 h _ (List.mem_cons_self ..)
  · exact h

/-! A loop from one integer to another, in the standard model. -/

namespace Interval

open Standard

/-- Declarations that add nothing. -/
def nothing : Interp where
  func _ _ := .lambda
  owner _ := ""
  ctorId _ := ""
  allocated _ _ := True
  good _ := True

/-- A state where the constants have their values and variables hold integers. -/
def state (a b c : ℤ) : String → Val
  | "null" => .ref .null
  | "alloc" => .field .alloc
  | "Set.Empty" => .set ∅
  | "MultiSet.Empty" => .multiset 0
  | "Seq.Empty" => .seq []
  | "Map.Empty" => .map 0
  | "a" => .int a
  | "b" => .int b
  | "c" => .int c
  | _ => .lambda

theorem preludeState (a b c : ℤ) :
    Model.PreludeState (M := model nothing) (.ref .null) (state a b c) (state a b c) :=
  { satisfiesPrelude nothing ⟨rfl, rfl, rfl, rfl, rfl⟩ with null := rfl }

/-- The guard of a loop that goes from one integer to another. -/
def guard : Source.Expr :=
  .binary ⟨default, .bool⟩ .lt (.mkVar default "x" .int) (.mkVar default "y" .int)

/-- The measure inferred from the guard. -/
def measure : Measure := .ofLoop none (some guard) none

/-- A variable that holds a value of the measure. -/
def stored (x : String) : List MeasureValue := [⟨.int, .var x, false⟩]

theorem hasValues {old ρ : String → Val} {x : String} {n : ℤ} (h : ρ x = .int n) :
    measure.HasValues (M := model nothing) old ρ (stored x) [.int n] :=
  ⟨.cons ⟨rfl, rfl, congrArg Val.sort h⟩ .nil, congrArg (fun v => [v]) h⟩

variable {x y : String} {allowEqual : Bool}

theorem holds_decreases (h : M.toInt (ρ y) < M.toInt (ρ x)) :
    Holds old ρ (Termination.decreases allowEqual (stored x) (stored y)) := by
  simp [Termination.decreases, Termination.commonOrder?, Termination.order?, Termination.less,
    stored, h]

/-- The check of an iteration is true if the measure goes down and stays bounded. -/
theorem holds_loopCheck (hlt : M.toInt (ρ y) < M.toInt (ρ x)) (hpos : 0 ≤ M.toInt (ρ y)) :
    Holds old ρ (Termination.loopCheck measure (stored x) (stored y)) := by
  have hdown : Holds old ρ (Termination.decreases false (stored x) (stored y)) :=
    holds_decreases hlt
  have hwildcard : measure.wildcard = false := rfl
  have hbounded : Termination.bounded? (stored x) (stored y) =
      some (.conj [.imp (.conj [.lt (.var y) (.var x)]) (.le (.nat 0) (.var y))]) := rfl
  simp [Termination.loopCheck, hwildcard, hbounded, hdown, hpos]

end Interval

/-- What every loop assumes of its measure is an invariant. It holds when the loop is entered,
where the values are those stored before it. And if it holds at the beginning of an iteration and
the check at its end is true, it holds at the end, whatever the states are in which the formulas
stand for the values `i` before the loop, `o` at the beginning and `n` at the end. -/
theorem measure_invariant {M : Model} (nil : M.Val) (m : Measure) (i o n : List M.Val) :
    (∀ old ρ, Model.PreludeState nil old ρ → ∀ inits current,
      m.HasValues old ρ inits i → m.HasValues old ρ current i →
        Holds old ρ (Termination.decreases true inits current)) ∧
    (∀ old ρ, Model.PreludeState nil old ρ → ∀ inits olds,
      m.HasValues old ρ inits i → m.HasValues old ρ olds o →
        Holds old ρ (Termination.decreases true inits olds) →
      ∀ old' ρ', Model.PreludeState nil old' ρ' → ∀ inits' olds' news,
        m.HasValues old' ρ' inits' i → m.HasValues old' ρ' olds' o →
          m.HasValues old' ρ' news n → Holds old' ρ' (Termination.loopCheck m olds' news) →
            Holds old' ρ' (Termination.decreases true inits' news)) := by
  constructor
  · intro old ρ hstate inits current hinits hcurrent
    rw [hstate.holds_decreases_iff hinits hcurrent]
    simpa using Model.Lex.refl nil m.exprs i
  · intro old ρ hstate inits olds hinits holds hinvariant old' ρ' hstate' inits' olds' news
      hinits' holds' hnews hcheck
    rw [hstate.holds_decreases_iff hinits holds] at hinvariant
    rw [hstate'.holds_decreases_iff hinits' hnews]
    have hdown : M.Lex nil (m.wildcard = true) m.exprs n o :=
      (hstate'.holds_decreases_iff holds' hnews).1 (holds_decreases_of_loopCheck hcheck)
    have hlex : M.Lex nil True m.exprs n i := by
      refine Model.Lex.trans hnews.length holds.length hinits.length ?_ ?_
      · exact hdown.mono fun _ => trivial
      · exact hinvariant.mono fun _ => trivial
    exact hlex.mono fun _ => rfl

theorem measure_invariant_interval :
    Holds (M := Standard.model Interval.nothing) (Interval.state 5 4 3) (Interval.state 5 4 3)
      (Termination.decreases true (Interval.stored "a") (Interval.stored "c")) := by
  have hstate := Interval.preludeState 5 4 3
  have hvalues := @Interval.hasValues (Interval.state 5 4 3) (Interval.state 5 4 3)
  have hdown := @Interval.holds_decreases (Standard.model Interval.nothing)
    (Interval.state 5 4 3) (Interval.state 5 4 3) "a" "b" true (by decide)
  have hcheck := @Interval.holds_loopCheck (Standard.model Interval.nothing)
    (Interval.state 5 4 3) (Interval.state 5 4 3) "b" "c" (by decide) (by decide)
  exact (measure_invariant (M := Standard.model Interval.nothing) (Standard.Val.ref .null)
      Interval.measure [Standard.Val.int 5] [Standard.Val.int 4] [Standard.Val.int 3]).2
    _ _ hstate _ _ (hvalues rfl) (hvalues rfl) hdown
    _ _ hstate _ _ _ (hvalues rfl) (hvalues rfl) (hvalues rfl) hcheck

/-! ## Termination -/

/-- Sets and multisets are finite: every set has finitely many elements, and every multiset finitely
many occurrences and no negative count. -/
structure IL.Model.FiniteCollections (M : Model) : Prop where
  elements_finite : ∀ s, M.carrier Prelude.setSort s → (M.elements s).Finite
  occurrences_finite : ∀ s, M.carrier Prelude.multisetSort s → (M.occurrences s).Finite
  count_nonneg : ∀ s b, M.carrier Prelude.multisetSort s → M.carrier Prelude.boxSort b →
    0 ≤ M.count s b

namespace Standard

variable {I : Interp}

theorem mem_elements {s b : Val} : b ∈ (model I).elements s ↔ ∃ n ∈ s.toSet, b = .box n := by
  have hmem : ∀ n, (model I).app "Set.mem" [s, .box n] = .ofProp (n ∈ s.toSet) :=
    fun n => app_op .setMem [s, .box n]
  constructor
  · rintro ⟨hbox, htrue⟩
    obtain ⟨n, rfl⟩ := Val.sort_eq_box.1 hbox
    rw [hmem, truth_iff, Val.ofProp_eq_true] at htrue
    exact ⟨n, htrue, rfl⟩
  · rintro ⟨n, hn, rfl⟩
    refine ⟨rfl, ?_⟩
    rw [hmem, truth_iff, Val.ofProp_eq_true]
    exact hn

theorem count_eq (I : Interp) (s b : Val) :
    (model I).count s b = s.toMultiset.count b.toBox :=
  congrArg Val.toInt (app_op (I := I) .multiplicity [s, b])

/-- Collections are finite in the standard model. -/
theorem finiteCollections (I : Interp) : (model I).FiniteCollections where
  elements_finite s _ := by
    refine (s.toSet.finite_toSet.image Val.box).subset fun b hb => ?_
    obtain ⟨n, hn, rfl⟩ := mem_elements.1 hb
    exact ⟨n, hn, rfl⟩
  occurrences_finite s _ := by
    refine ((s.toMultiset.toFinset ×ˢ Finset.range s.toMultiset.card).finite_toSet.image
      fun p : ℕ × ℕ => (Val.box p.1, p.2)).subset ?_
    rintro ⟨b, k⟩ ⟨hbox, hlt⟩
    obtain ⟨n, rfl⟩ := Val.sort_eq_box.1 hbox
    have hcount : k < s.toMultiset.count n := Int.ofNat_lt.1 (hlt.trans_eq (count_eq I s _))
    have hmem : n ∈ s.toMultiset := Multiset.count_pos.1 (Nat.zero_lt_of_lt hcount)
    have hcard := hcount.trans_le (Multiset.count_le_card n s.toMultiset)
    exact ⟨(n, k), by simp [hmem, hcard], rfl⟩
  count_nonneg s b _ _ := (Int.natCast_nonneg _).trans_eq (count_eq I s b).symm

end Standard

/-- A value below another one has the smaller height. An integer has to stay bounded for that. -/
theorem height_lt_of_below {a b : M.Val} (hfinite : M.FiniteCollections) (hM : M.Collections)
    (hranked : M.Ranked) (horder : order ≠ .growing) (ha : M.carrier order.sort a)
    (hb : M.carrier order.sort b) (hbound : order = .int → 0 ≤ M.toInt a)
    (h : M.Below nil order a b) : M.height nil order a < M.height nil order b := by
  cases order with
  | bool => simp [Model.height, h.1, h.2]
  | int =>
    have hlt : M.toInt a < M.toInt b := h
    have hpos := hbound rfl
    simp only [Model.height]
    omega
  | seq =>
    have hlt : M.toInt (M.app "Seq.Length" [a]) < M.toInt (M.app "Seq.Length" [b]) := h
    have hpos := hranked.length_nonneg a ha
    simp only [Model.height]
    omega
  | datatype =>
    have hlt : M.toInt (M.app "DtRank" [a]) < M.toInt (M.app "DtRank" [b]) := h
    have hpos := hranked.rank_nonneg a ha
    simp only [Model.height]
    omega
  | set => exact Set.ncard_lt_ncard h (hfinite.elements_finite b hb)
  | multiset =>
    exact Model.ncard_occurrences_lt (hfinite.occurrences_finite b hb)
      (fun x hx => hfinite.count_nonneg a x ha hx) h.1 h.2
  | map => exact Set.ncard_lt_ncard h (hfinite.elements_finite _ (hM.domain_sort b hb))
  | ref => simp [Model.height, h.1, h.2]
  | growing => exact absurd rfl horder

/-- The same values have the same height. -/
theorem height_eq_of_same {a b : M.Val} (h : M.Same order a b) :
    M.height nil order a = M.height nil order b := by
  cases order with
  | set => simp only [Model.height, show M.elements a = M.elements b from h]
  | multiset => simp only [Model.height, Model.occurrences_eq_of_count h]
  | _ => rw [show a = b from h]

/-- An iteration of a loop with this measure takes the values `o` to the values `n`, with a true
check at its end. -/
def Source.Measure.Iterates (m : Measure) (nil : M.Val) (n o : List M.Val) : Prop :=
  ∃ old ρ, Model.PreludeState nil old ρ ∧ ∃ olds news, m.HasValues old ρ olds o ∧
    m.HasValues old ρ news n ∧ Holds old ρ (Termination.loopCheck m olds news)

/-- A measure of components that can be compared, none of which counts up, in a loop that has to
terminate. -/
structure Source.Measure.Terminating (m : Measure) : Prop where
  limited : m.wildcard = false
  compared : ∀ x ∈ m.exprs, x.grows = false ∧ x.order?.isSome

theorem Source.Measure.typ_ofGuard? {g e : Source.Expr} (h : Measure.ofGuard? g = some e) :
    e.typ = .int := by
  unfold Measure.ofGuard? at h
  dsimp only at h
  split at h
  · split at h
    · split at h <;> cases h <;> rfl
    · cases h
  · cases h

/-- The measure of a loop is of this kind if it is inferred from the guard, or explicit without
`decreases *` and without components of a type parameter. -/
theorem Source.Measure.terminating_ofLoop {d : Option Decreases} {g : Option Source.Expr}
    {y : Option String} (hy : d = none → y = none)
    (hd : ∀ d' ∈ d, d'.wildcard = false ∧ ∀ e ∈ d'.exprs, ∀ p, e.typ ≠ .param p) :
    (Measure.ofLoop d g y).Terminating := by
  cases d with
  | none =>
    rw [hy rfl]
    refine ⟨rfl, fun x hx => ?_⟩
    obtain ⟨e, he, rfl⟩ := List.mem_map.1 hx
    obtain ⟨guard, -, hguard⟩ := Option.bind_eq_some_iff.1 (Option.mem_toList.1 he)
    simp [MeasureExpr.grows, MeasureExpr.order?, MeasureExpr.typ, Termination.order?,
      Measure.typ_ofGuard? hguard]
  | some d =>
    obtain ⟨hwildcard, htypes⟩ := hd d rfl
    refine ⟨hwildcard, fun x hx => ?_⟩
    obtain ⟨e, he, rfl⟩ := List.mem_map.1 hx
    refine ⟨rfl, ?_⟩
    have htyp := htypes e he
    show (Termination.order? ⟨e.typ, .tt, false⟩).isSome
    cases ht : e.typ with
    | param p => exact absurd ht (htyp p)
    | _ => rfl

namespace Source.Measure.Terminating

variable {m : Measure} {olds news : List MeasureValue}

/-- The check of a loop that has to terminate is a strict comparison with its bounds. -/
theorem holds_loopCheck (hm : m.Terminating)
    (h : Holds old ρ (Termination.loopCheck m olds news)) :
    Holds old ρ (Termination.decreases false olds news) ∧
      ∀ e ∈ Termination.bounds [] olds news, Holds old ρ e := by
  refine ⟨hm.limited ▸ holds_decreases_of_loopCheck h, fun e he => ?_⟩
  have hbounded : Termination.bounded? olds news =
      some (.conj (Termination.bounds [] olds news)) := by
    unfold Termination.bounded?
    cases hb : Termination.bounds [] olds news with
    | nil => simp [hb] at he
    | cons b bs => rfl
  simp only [Termination.loopCheck, hbounded, hm.limited, Bool.false_eq_true, if_false,
    holds_conj] at h
  exact (holds_conj _).1 (h _ (by simp)) e he

/-- The comparison does not stop before the end. -/
theorem not_stopsEarly {xs : List MeasureExpr} (hxs : ∀ x ∈ xs, x.order?.isSome)
    (holds : List.Forall₂ (MeasureValue.Of old ρ) xs olds)
    (hnews : List.Forall₂ (MeasureValue.Of old ρ) xs news) : ¬ StopsEarly old ρ olds news := by
  induction holds generalizing news with
  | nil => simp [StopsEarly]
  | @cons x o xs olds ho _ ih =>
    obtain _ | ⟨hn, hnews⟩ := hnews
    obtain ⟨order, horder⟩ := Option.isSome_iff_exists.1 (hxs x (List.mem_cons_self ..))
    simp only [StopsEarly, ho.commonOrder?_eq hn, horder]
    exact fun h => ih (fun y hy => hxs y (List.mem_cons_of_mem _ hy)) hnews h.2

end Source.Measure.Terminating

/-- The heights of values of the components of a measure. -/
noncomputable def IL.Model.heights (M : Model) (nil : M.Val) (xs : List MeasureExpr)
    (as : List M.Val) : List Nat :=
  List.zipWith (fun x a => M.heightAt nil (x.typ, a)) xs as

theorem heights_eq {xs : List MeasureExpr} {vs : List MeasureValue}
    (h : List.Forall₂ (MeasureValue.Of old ρ) xs vs) :
    M.heights nil xs (vs.map (·.expr.eval old ρ)) =
      vs.map fun v => M.heightAt nil (v.at old ρ) := by
  induction h with
  | nil => rfl
  | cons hv _ ih =>
    simp only [Model.heights, List.map_cons, List.zipWith_cons_cons, MeasureValue.at,
      hv.typ] at ih ⊢
    rw [ih]

/-- A tuple that the generated formulas call less and bounded has lower heights, if all components
can be compared and none counts up. -/
theorem heights_lex (hfinite : M.FiniteCollections) (hM : M.Collections) (hranked : M.Ranked)
    (hnull : ρ "null" = nil) {xs : List MeasureExpr} {olds news : List MeasureValue}
    (hxs : ∀ x ∈ xs, x.grows = false ∧ x.order?.isSome)
    (holds : List.Forall₂ (MeasureValue.Of old ρ) xs olds)
    (hnews : List.Forall₂ (MeasureValue.Of old ρ) xs news)
    (hdown : Holds old ρ (Termination.decreases false olds news))
    (hbounds : ∀ e ∈ Termination.bounds [] olds news, Holds old ρ e) :
    List.Lex (· < ·) (M.heights nil xs (news.map (·.expr.eval old ρ)))
      (M.heights nil xs (olds.map (·.expr.eval old ρ))) := by
  have hstop : ¬ StopsEarly old ρ olds news :=
    Source.Measure.Terminating.not_stopsEarly (fun x hx => (hxs x hx).2) holds hnews
  -- a value of a component that is compared in an order has the sort of the order
  have hvalue : ∀ {vs : List MeasureValue}, List.Forall₂ (MeasureValue.Of old ρ) xs vs →
      ∀ v ∈ vs, ∀ order, Termination.order? v = some order → v.everIncreasing = false ∧
        order ≠ .growing ∧ M.carrier order.sort (v.expr.eval old ρ) := by
    intro vs hvs v hv order horder
    obtain ⟨x, hx, hof⟩ := exists_of_forall₂ hvs hv
    have hgrows : v.everIncreasing = false := hof.grows.trans (hxs x hx).1
    refine ⟨hgrows, ?_, hof.carrier (hof.order?_eq.symm.trans horder)⟩
    rintro rfl
    cases ht : v.typ <;> simp [Termination.order?, hgrows, ht] at horder
  rw [heights_eq holds, heights_eq hnews]
  refine lex_of_descent ?_ ?_ (by simp) hdown hbounds hstop
  · intro o ho n hn order hcommon hbound hless
    obtain ⟨horder, horder'⟩ := orders_of_common hcommon
    obtain ⟨hgo, hne, hso⟩ := hvalue holds o ho order horder
    obtain ⟨hgn, -, hsn⟩ := hvalue hnews n hn order horder'
    rw [heightAt_eq hgo horder, heightAt_eq hgn horder']
    rw [holds_less_iff hM hnull hso hsn] at hless
    refine height_lt_of_below hfinite hM hranked hne hsn hso ?_ hless
    rintro rfl
    simpa using hbound rfl (by simpa [Model.Below] using hless)
  · intro o ho n hn order hcommon hsame
    obtain ⟨horder, horder'⟩ := orders_of_common hcommon
    obtain ⟨hgo, -, hso⟩ := hvalue holds o ho order horder
    obtain ⟨hgn, -, hsn⟩ := hvalue hnews n hn order horder'
    rw [heightAt_eq hgo horder, heightAt_eq hgn horder']
    exact height_eq_of_same ((holds_unchanged_iff hM horder hso hsn).1 hsame)

/-- An iteration lowers the heights. -/
theorem Source.Measure.Iterates.lex {m : Measure} {n o : List M.Val} (hm : m.Terminating)
    (hfinite : M.FiniteCollections) (h : m.Iterates nil n o) :
    List.Lex (· < ·) (M.heights nil m.exprs n) (M.heights nil m.exprs o) := by
  obtain ⟨old, ρ, hstate, olds, news, ⟨holds, rfl⟩, ⟨hnews, rfl⟩, hcheck⟩ := h
  obtain ⟨hdown, hbounds⟩ := hm.holds_loopCheck hcheck
  exact heights_lex hfinite (Prelude.collections_of_prelude hstate.toSatisfiesPrelude)
    (Prelude.ranked_of_prelude hstate.facts) hstate.null hm.compared holds hnews hdown hbounds

/-- A loop whose checks are true ends, in every model of the prelude with finite collections. The
measure is explicit, without `decreases *` and components of a type parameter, or inferred from the
guard; integers may start negative. -/
theorem loop_wf {M : Model} (nil : M.Val) (hfinite : M.FiniteCollections) (d : Option Decreases)
    (g : Option Source.Expr) (y : Option String) (hy : d = none → y = none)
    (hd : ∀ d' ∈ d, d'.wildcard = false ∧ ∀ e ∈ d'.exprs, ∀ p, e.typ ≠ .param p) :
    WellFounded ((Measure.ofLoop d g y).Iterates nil) := by
  have hm : (Measure.ofLoop d g y).Terminating := Measure.terminating_ofLoop hy hd
  generalize Measure.ofLoop d g y = m at hm
  refine Subrelation.wf (fun {n o} h => ?_)
    (InvImage.wf (M.heights nil m.exprs) (lex_wf m.exprs.length))
  refine ⟨?_, ?_, h.lex hm hfinite⟩
  · simp [Model.heights]
  · simp [Model.heights]

theorem loop_wf_interval :
    Interval.measure.Iterates (M := Standard.model Interval.nothing) (.ref .null)
        [.int 2] [.int 3] ∧
      WellFounded (Interval.measure.Iterates (M := Standard.model Interval.nothing)
        (.ref .null)) :=
  ⟨⟨Interval.state 0 3 2, Interval.state 0 3 2, Interval.preludeState 0 3 2, Interval.stored "b",
      Interval.stored "c", Interval.hasValues rfl, Interval.hasValues rfl,
      Interval.holds_loopCheck (by decide) (by decide)⟩,
    loop_wf (Standard.Val.ref .null) (Standard.finiteCollections Interval.nothing) none
      (some Interval.guard) none (fun _ => rfl) (fun _ h => nomatch h)⟩

end ContractLowering
