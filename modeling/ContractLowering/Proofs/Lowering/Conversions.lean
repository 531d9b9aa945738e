import ContractLowering.Proofs.IL.Free
import ContractLowering.Proofs.Lowering.Vocabulary

/-!
# Conversions there and back

A conversion looks at the head of what it converts: it adds a box or unbox function, or it takes
one away where the two cancel, or it leaves the expression alone. So two conversions in a row are
settled by the two outermost applications of the expression.

Converting twice in the same direction differs from converting once for one form only: an unboxed
expression that is not a box itself. Its first boxing cancels the unboxing, and what comes out is a
box that does not look like one, which the second boxing boxes again. Converting there and back
gives the expression, short of a pair at its head that cancels.
-/

namespace ContractLowering

open IL Source

namespace Boxing

variable {Δ : Vocabulary} {G : Sorts} {t source target : Typ} {e a b x : IL.Expr}
  {s s' : Prelude.BoxSort}

@[simp]
theorem applied?_box (s : Prelude.BoxSort) (x : IL.Expr) :
    applied? (.app s.boxName [x]) = some (.boxed s x) := by
  cases s <;> rfl

@[simp]
theorem applied?_unbox (s : Prelude.BoxSort) (b : IL.Expr) :
    applied? (.app s.unboxName [b]) = some (.unboxed s b) := by
  cases s <;> rfl

/-- The expression applies a box function. -/
def IsBox (e : IL.Expr) : Prop := ∃ s x, e = .app (Prelude.BoxSort.boxName s) [x]

/-- The expression applies an unbox function. -/
def IsUnbox (e : IL.Expr) : Prop := ∃ s b, e = .app (Prelude.BoxSort.unboxName s) [b]

/-- The forms that conversions tell apart. -/
theorem isBox_or_isUnbox_or (e : IL.Expr) : IsBox e ∨ IsUnbox e ∨ applied? e = none := by
  cases h : applied? e with
  | none => exact .inr (.inr rfl)
  | some c =>
    cases c with
    | boxed s x => exact .inl ⟨s, x, eq_of_boxed h⟩
    | unboxed s b => exact .inr (.inl ⟨s, b, eq_of_unboxed h⟩)

theorem not_isUnbox_of_isBox (h : IsBox e) : ¬ IsUnbox e := by
  rintro ⟨s', b, rfl⟩
  obtain ⟨s, x, heq⟩ := h
  have happlied := congrArg applied? heq
  simp at happlied

/-! ## One conversion -/

theorem box_unbox (ht : t.boxSort? = some s) : box t (.app s.unboxName [b]) = b := by
  simp [box, ht]

theorem unbox_box (ht : t.boxSort? = some s) : unbox t (.app s.boxName [x]) = x := by
  simp [unbox, ht]

theorem box_of_isBox (h : IsBox e) : box t e = e := by
  obtain ⟨s, x, rfl⟩ := h
  cases ht : t.boxSort? <;> simp [box, ht]

theorem unbox_of_isUnbox (h : IsUnbox e) : unbox t e = e := by
  obtain ⟨s, b, rfl⟩ := h
  cases ht : t.boxSort? <;> simp [unbox, ht]

/-- A box function is added unless there is one, or one to cancel. -/
theorem box_eq_app (ht : t.boxSort? = some s) (hbox : ¬ IsBox e)
    (hunbox : ∀ b, e ≠ .app s.unboxName [b]) : box t e = .app s.boxName [e] := by
  obtain h | ⟨s', b, rfl⟩ | h := isBox_or_isUnbox_or e
  · exact absurd h hbox
  · have hne : s' ≠ s := fun hs => hunbox b (by rw [hs])
    simp [box, ht, hne]
  · simp [box, ht, h]

/-- An unbox function is added unless there is one, or one to cancel. -/
theorem unbox_eq_app (ht : t.boxSort? = some s) (hunbox : ¬ IsUnbox e)
    (hbox : ∀ x, e ≠ .app s.boxName [x]) : unbox t e = .app s.unboxName [e] := by
  obtain ⟨s', x, rfl⟩ | h | h := isBox_or_isUnbox_or e
  · have hne : s' ≠ s := fun hs => hbox x (by rw [hs])
    simp [unbox, ht, hne]
  · exact absurd h hunbox
  · simp [unbox, ht, h]

theorem free_box (t : Typ) (e : IL.Expr) : (box t e).free = e.free := by
  unfold box
  split
  · rfl
  · split
    · rename_i hunboxed
      rw [eq_of_unboxed hunboxed]
      split <;> simp [Expr.free, Expr.freeList]
    · rfl
    · simp [Expr.free, Expr.freeList]

theorem free_unbox (t : Typ) (e : IL.Expr) : (unbox t e).free = e.free := by
  unfold unbox
  split
  · rfl
  · split
    · rename_i hboxed
      rw [eq_of_boxed hboxed]
      split <;> simp [Expr.free, Expr.freeList]
    · rfl
    · simp [Expr.free, Expr.freeList]

/-- A conversion has the free names of what it converts. -/
theorem free_convert (t u : Typ) (e : IL.Expr) : (convert t u e).free = e.free := by
  unfold convert unboxTo boxTo
  split <;> split <;> simp only [free_unbox, free_box]

/-! ## Twice in the same direction -/

/-- Nothing is its own box. -/
theorem app_ne (f : String) (x : IL.Expr) : IL.Expr.app f [x] ≠ x := by
  intro h
  have hsize := congrArg sizeOf h
  simp only [IL.Expr.app.sizeOf_spec, List.cons.sizeOf_spec] at hsize
  omega

theorem box_eq_self_iff (ht : t.boxSort? = some s) : box t e = e ↔ IsBox e := by
  refine ⟨fun h => ?_, box_of_isBox⟩
  by_contra hbox
  by_cases hunbox : ∃ b, e = .app s.unboxName [b]
  · obtain ⟨b, rfl⟩ := hunbox
    rw [box_unbox ht] at h
    exact app_ne _ _ h.symm
  · rw [box_eq_app ht hbox fun b hb => hunbox ⟨b, hb⟩] at h
    exact app_ne _ _ h

theorem unbox_eq_self_iff (ht : t.boxSort? = some s) : unbox t e = e ↔ IsUnbox e := by
  refine ⟨fun h => ?_, unbox_of_isUnbox⟩
  by_contra hunbox
  by_cases hbox : ∃ x, e = .app s.boxName [x]
  · obtain ⟨x, rfl⟩ := hbox
    rw [unbox_box ht] at h
    exact app_ne _ _ h.symm
  · rw [unbox_eq_app ht hunbox fun x hx => hbox ⟨x, hx⟩] at h
    exact app_ne _ _ h

/-- A second boxing changes nothing, but for what the first one takes out of an unbox function. -/
theorem box_box_iff (ht : t.boxSort? = some s) :
    box t (box t e) = box t e ↔ ∀ b, e = .app s.unboxName [b] → IsBox b := by
  rw [box_eq_self_iff ht]
  by_cases hunbox : ∃ b, e = .app s.unboxName [b]
  · obtain ⟨b, rfl⟩ := hunbox
    simp [box_unbox ht]
  · have hne : ∀ b, e ≠ .app s.unboxName [b] := fun b hb => hunbox ⟨b, hb⟩
    refine iff_of_true ?_ fun b hb => absurd hb (hne b)
    by_cases hbox : IsBox e
    · rwa [box_of_isBox hbox]
    · exact ⟨s, e, box_eq_app ht hbox hne⟩

/-- A second unboxing changes nothing, but for what the first one takes out of a box function. -/
theorem unbox_unbox_iff (ht : t.boxSort? = some s) :
    unbox t (unbox t e) = unbox t e ↔ ∀ x, e = .app s.boxName [x] → IsUnbox x := by
  rw [unbox_eq_self_iff ht]
  by_cases hbox : ∃ x, e = .app s.boxName [x]
  · obtain ⟨x, rfl⟩ := hbox
    simp [unbox_box ht]
  · have hne : ∀ x, e ≠ .app s.boxName [x] := fun x hx => hbox ⟨x, hx⟩
    refine iff_of_true ?_ fun x hx => absurd hx (hne x)
    by_cases hunbox : IsUnbox e
    · rwa [unbox_of_isUnbox hunbox]
    · exact ⟨s, e, unbox_eq_app ht hunbox hne⟩

theorem isBoxed_iff : t.isBoxed = true ↔ t.boxSort? = none := by
  simp [Typ.isBoxed]

theorem boxTo_boxTo_iff : boxTo source target (boxTo source target e) = boxTo source target e ↔
    ∀ s b, target.boxSort? = none → source.boxSort? = some s → e = .app s.unboxName [b] →
      IsBox b := by
  cases hs : source.boxSort? with
  | none => simp [boxTo, isBoxed_iff.2 hs]
  | some s =>
    have hnative : source.isBoxed = false := by simp [Typ.isBoxed, hs]
    cases ht : target.boxSort? with
    | none =>
      simp only [boxTo, isBoxed_iff.2 ht, hnative, Bool.not_false, Bool.and_self, if_true,
        box_box_iff hs]
      constructor
      · rintro h _ b - ⟨⟩ hb
        exact h b hb
      · exact fun h b hb => h s b trivial rfl hb
    | some s' => simp [boxTo, Typ.isBoxed, ht]

theorem unboxTo_unboxTo_iff :
    unboxTo source target (unboxTo source target e) = unboxTo source target e ↔
      ∀ s x, source.boxSort? = none → target.boxSort? = some s → e = .app s.boxName [x] →
        IsUnbox x := by
  cases ht : target.boxSort? with
  | none => simp [unboxTo, isBoxed_iff.2 ht]
  | some s =>
    have hnative : target.isBoxed = false := by simp [Typ.isBoxed, ht]
    cases hs : source.boxSort? with
    | none =>
      simp only [unboxTo, isBoxed_iff.2 hs, hnative, Bool.not_false, Bool.and_self, if_true,
        unbox_unbox_iff ht]
      constructor
      · rintro h _ x - ⟨⟩ hx
        exact h x hx
      · exact fun h x hx => h s x trivial rfl hx
    | some s' => simp [unboxTo, Typ.isBoxed, hs]

/-! ## There and back -/

/-- At the head of the expression stands a pair of functions that cancel: the one that gives a
value of the source type, and below it the one that converts to the target type. What it is applied
to is `inner`. -/
inductive Cancels (source target : Typ) : IL.Expr → IL.Expr → Prop
  | unboxed {s : Prelude.BoxSort} {x : IL.Expr} (hs : source.boxSort? = some s)
    (ht : target.boxSort? = none) :
    Cancels source target (.app s.unboxName [.app s.boxName [x]]) x
  | boxed {s : Prelude.BoxSort} {b : IL.Expr} (hs : source.boxSort? = none)
    (ht : target.boxSort? = some s) :
    Cancels source target (.app s.boxName [.app s.unboxName [b]]) b

/-- The box and unbox functions have their sorts. -/
structure Declared (Δ : Vocabulary) : Prop where
  box : ∀ s : Prelude.BoxSort, Δ.func s.boxName = some ([s.sort], Prelude.boxSort)
  unbox : ∀ s : Prelude.BoxSort, Δ.func s.unboxName = some ([Prelude.boxSort], s.sort)

theorem not_isBox_of_sort (hΔ : Declared Δ) (h : e.sort? Δ G = some s.sort) : ¬ IsBox e := by
  rintro ⟨s', x, rfl⟩
  exact boxSort_ne s (arg_sort (hΔ.box s') h).1

theorem not_isUnbox_of_sort (hΔ : Declared Δ) (h : e.sort? Δ G = some Prelude.boxSort) :
    ¬ IsUnbox e := by
  rintro ⟨s', b, rfl⟩
  exact boxSort_ne s' (arg_sort (hΔ.unbox s') h).1.symm

/-- A native value is given back by boxing and unboxing. -/
theorem unbox_box_of_sort (hΔ : Declared Δ) (ht : t.boxSort? = some s)
    (h : e.sort? Δ G = some s.sort) (hne : ∀ x, e ≠ .app s.unboxName [.app s.boxName [x]]) :
    unbox t (box t e) = e := by
  by_cases hunbox : ∃ b, e = .app s.unboxName [b]
  · obtain ⟨b, rfl⟩ := hunbox
    have hb : b.sort? Δ G = some Prelude.boxSort := (arg_sort (hΔ.unbox s) h).2
    rw [box_unbox ht, unbox_eq_app ht (not_isUnbox_of_sort hΔ hb)]
    intro x hx
    exact hne x (by rw [hx])
  · rw [box_eq_app ht (not_isBox_of_sort hΔ h) fun b hb => hunbox ⟨b, hb⟩, unbox_box ht]

/-- A box is given back by unboxing and boxing. -/
theorem box_unbox_of_sort (hΔ : Declared Δ) (ht : t.boxSort? = some s)
    (h : e.sort? Δ G = some Prelude.boxSort)
    (hne : ∀ b, e ≠ .app s.boxName [.app s.unboxName [b]]) : box t (unbox t e) = e := by
  by_cases hbox : ∃ x, e = .app s.boxName [x]
  · obtain ⟨x, rfl⟩ := hbox
    have hx : x.sort? Δ G = some s.sort := (arg_sort (hΔ.box s) h).2
    rw [unbox_box ht, box_eq_app ht (not_isBox_of_sort hΔ hx)]
    intro b hb
    exact hne b (by rw [hb])
  · rw [unbox_eq_app ht (not_isUnbox_of_sort hΔ h) fun x hx => hbox ⟨x, hx⟩, box_unbox ht]

theorem convert_of_native_to_boxed (hs : source.boxSort? = some s) (ht : target.boxSort? = none) :
    convert source target e = box source e := by
  simp [convert, boxTo, unboxTo, Typ.isBoxed, hs, ht]

theorem convert_of_boxed_to_native (hs : source.boxSort? = none) (ht : target.boxSort? = some s) :
    convert source target e = unbox target e := by
  simp [convert, boxTo, unboxTo, Typ.isBoxed, hs, ht]

/-- Where both types are boxed, or both native, nothing is converted. -/
theorem convert_of_isBoxed_eq (h : source.isBoxed = target.isBoxed) :
    convert source target e = e := by
  cases ht : target.isBoxed <;> simp [convert, boxTo, unboxTo, h, ht]

/-- What cancels at the head is lost on the way there and back. -/
theorem convert_convert_of_cancels (h : Cancels source target e a) :
    convert target source (convert source target e) = a := by
  cases h with
  | unboxed hs ht =>
    rw [convert_of_native_to_boxed hs ht, convert_of_boxed_to_native ht hs, box_unbox hs,
      unbox_box hs]
  | boxed hs ht =>
    rw [convert_of_boxed_to_native hs ht, convert_of_native_to_boxed ht hs, unbox_box ht,
      box_unbox ht]

theorem convert_convert_of_sort (hΔ : Declared Δ) (h : e.sort? Δ G = some source.sort)
    (hne : ∀ a, ¬ Cancels source target e a) :
    convert target source (convert source target e) = e := by
  cases hs : source.boxSort? with
  | some s =>
    cases ht : target.boxSort? with
    | some s' =>
      have hsame : source.isBoxed = target.isBoxed := by simp [Typ.isBoxed, hs, ht]
      rw [convert_of_isBoxed_eq hsame, convert_of_isBoxed_eq hsame.symm]
    | none =>
      rw [convert_of_native_to_boxed hs ht, convert_of_boxed_to_native ht hs]
      refine unbox_box_of_sort hΔ hs (sort_of_boxSort? hs ▸ h) fun x hx => hne x ?_
      exact hx ▸ .unboxed hs ht
  | none =>
    cases ht : target.boxSort? with
    | none =>
      have hsame : source.isBoxed = target.isBoxed := by simp [Typ.isBoxed, hs, ht]
      rw [convert_of_isBoxed_eq hsame, convert_of_isBoxed_eq hsame.symm]
    | some s =>
      rw [convert_of_boxed_to_native hs ht, convert_of_native_to_boxed ht hs]
      refine box_unbox_of_sort hΔ ht (sort_of_isBoxed (isBoxed_iff.2 hs) ▸ h) fun b hb => hne b ?_
      exact hb ▸ .boxed hs ht

end Boxing

open Boxing

/-- Converting twice in one direction is converting once, unless the first conversion cancels a
function of the other direction and finds none of its own below; and of an expression that has the
sort of the source type, converting there and back leaves all but a pair at its head that
cancels. -/
theorem conversion_laws (source target : Typ) (e : IL.Expr) :
    (boxTo source target (boxTo source target e) = boxTo source target e ↔
      ∀ s b, target.boxSort? = none → source.boxSort? = some s → e = .app s.unboxName [b] →
        IsBox b) ∧
    (unboxTo source target (unboxTo source target e) = unboxTo source target e ↔
      ∀ s x, source.boxSort? = none → target.boxSort? = some s → e = .app s.boxName [x] →
        IsUnbox x) ∧
    ∀ (Δ : Vocabulary) (G : Sorts), Declared Δ → e.sort? Δ G = some source.sort →
      (∀ a, Cancels source target e a → convert target source (convert source target e) = a) ∧
      ((∀ a, ¬ Cancels source target e a) →
        convert target source (convert source target e) = e) :=
  ⟨boxTo_boxTo_iff, unboxTo_unboxTo_iff, fun _ _ hΔ h =>
    ⟨fun _ ha => convert_convert_of_cancels ha, fun hne => convert_convert_of_sort hΔ h hne⟩⟩

/-! ## A value and a box of integers -/

namespace Boxing.Integers

/-- The box and unbox functions alone. -/
def vocabulary : Vocabulary where
  func f := match Prelude.BoxSort.ofBoxName? f with
    | some s => some ([s.sort], Prelude.boxSort)
    | none => (Prelude.BoxSort.ofUnboxName? f).map fun s => ([Prelude.boxSort], s.sort)
  global _ := none

theorem declared : Declared vocabulary where
  box s := by cases s <;> rfl
  unbox s := by cases s <;> rfl

/-- An integer that was taken out of a box. -/
def content : IL.Expr := .app Prelude.BoxSort.int.unboxName [.var "b"]

theorem content_sort : content.sort? vocabulary (fun _ => some Prelude.boxSort) = some .int := rfl

theorem not_cancels (a : IL.Expr) : ¬ Cancels .int (.param "T") content a := by
  intro h
  generalize hc : content = c at h
  cases h with
  | unboxed hs ht => simp [content] at hc
  | boxed hs ht => cases hs

end Boxing.Integers

/-- An integer that was taken out of a box is given back. -/
theorem conversion_laws_content :
    (Boxing.Integers.content.sort? Boxing.Integers.vocabulary fun _ => some Prelude.boxSort) =
        some Typ.int.sort ∧
      convert (.param "T") .int (convert .int (.param "T") Boxing.Integers.content) =
        Boxing.Integers.content :=
  ⟨Boxing.Integers.content_sort,
    ((conversion_laws .int (.param "T") Boxing.Integers.content).2.2 _ _
      Boxing.Integers.declared Boxing.Integers.content_sort).2 Boxing.Integers.not_cancels⟩

/-- Boxing twice where a type parameter is expected: what the first boxing takes out of the unbox
function, the second one boxes; unboxing twice likewise. There and back, a pair that cancels is
lost. -/
theorem conversion_laws_fail :
    boxTo .int (.param "T") (boxTo .int (.param "T") (.app "$Unbox.int" [.var "b"])) ≠
      boxTo .int (.param "T") (.app "$Unbox.int" [.var "b"]) ∧
    unboxTo (.param "T") .int (unboxTo (.param "T") .int (.app "$Box.int" [.var "x"])) ≠
      unboxTo (.param "T") .int (.app "$Box.int" [.var "x"]) ∧
    convert (.param "T") .int
        (convert .int (.param "T") (.app "$Unbox.int" [.app "$Box.int" [.var "x"]])) ≠
      .app "$Unbox.int" [.app "$Box.int" [.var "x"]] := by
  refine ⟨?_, ?_, ?_⟩
  · show IL.Expr.app "$Box.int" [.var "b"] ≠ .var "b"
    nofun
  · show IL.Expr.app "$Unbox.int" [.var "x"] ≠ .var "x"
    nofun
  · show IL.Expr.var "x" ≠ .app "$Unbox.int" [.app "$Box.int" [.var "x"]]
    nofun

end ContractLowering
