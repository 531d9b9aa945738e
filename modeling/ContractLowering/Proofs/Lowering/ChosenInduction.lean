import ContractLowering.Proofs.Lowering.LoopMeasure
import ContractLowering.Proofs.Lowering.Split

/-!
# Induction on variables of any type

The program may name the variables that a quantifier is proved by induction on, of any type. The
generated comparison is that of measures: integers go down, collections to proper subsets, objects
to null. Measures have to stay bounded besides, and the hypothesis does not say so. So induction on
an integer is sound only if the range bounds it (`induction_sound`), and without a bound it proves
what is false (`induction_unsound_unbounded`).
-/

namespace ContractLowering

open IL Source

variable {M : Model} {nil : M.Val} {old ρ σ σ' τ : M.Valuation}

/-! ## Heights of induction variables -/

/-- Variables as components of a measure. -/
def Source.Binder.components (vars : List Source.Binder) : List MeasureExpr :=
  vars.map fun b => .expr (.mkVar default b.1 b.2)

/-- The heights of the values that variables have. -/
noncomputable def IL.Model.heightsOf (M : Model) (nil : M.Val) (vars : List Source.Binder)
    (σ : M.Valuation) : List Nat :=
  M.heights nil (Source.Binder.components vars) (vars.map fun b => σ b.1)

/-- The heights of variables do not go down forever. -/
theorem heightsOf_wf (nil : M.Val) (vars : List Source.Binder) :
    WellFounded fun σ' σ => List.Lex (· < ·) (M.heightsOf nil vars σ') (M.heightsOf nil vars σ) := by
  refine Subrelation.wf (fun {σ' σ} h => ?_)
    (InvImage.wf (M.heightsOf nil vars) (lex_wf vars.length))
  refine ⟨?_, ?_, h⟩
  · simp [Model.heightsOf, Model.heights, Source.Binder.components]
  · simp [Model.heightsOf, Model.heights, Source.Binder.components]

/-- Values of variables are values of the components. -/
theorem of_varValues {vars : List Source.Binder}
    (h : ∀ b ∈ vars, M.carrier b.2.sort (τ b.1)) :
    List.Forall₂ (MeasureValue.Of old τ) (Source.Binder.components vars)
      (Induction.varValues vars) := by
  simp only [Source.Binder.components, Induction.varValues, List.forall₂_map_left_iff,
    List.forall₂_map_right_iff]
  exact List.forall₂_same.2 fun b hb => ⟨rfl, rfl, h b hb⟩

/-- Values of copies are values of the components as well. -/
theorem of_varValues_renamed {vars : List Source.Binder} {n : Nat}
    (h : ∀ b ∈ vars, M.carrier b.2.sort (τ (Naming.renamed b.1 n))) :
    List.Forall₂ (MeasureValue.Of old τ) (Source.Binder.components vars)
      (Induction.varValues (Induction.renamed n vars)) := by
  simp only [Source.Binder.components, Induction.varValues, Induction.renamed, List.map_map,
    List.forall₂_map_left_iff, List.forall₂_map_right_iff]
  exact List.forall₂_same.2 fun b hb => ⟨rfl, rfl, h b hb⟩

theorem eval_varValues {vars : List Source.Binder} (h : ∀ b ∈ vars, τ b.1 = σ b.1) :
    (Induction.varValues vars).map (·.expr.eval old τ) = vars.map fun b => σ b.1 := by
  simp only [Induction.varValues, List.map_map]
  exact List.map_congr_left h

theorem eval_varValues_renamed {vars : List Source.Binder} {n : Nat}
    (h : ∀ b ∈ vars, τ (Naming.renamed b.1 n) = σ b.1) :
    (Induction.varValues (Induction.renamed n vars)).map (·.expr.eval old τ) =
      vars.map fun b => σ b.1 := by
  simp only [Induction.varValues, Induction.renamed, List.map_map]
  exact List.map_congr_left h

/-- The bounds of a measure hold if no integer among the new values is negative. -/
theorem holds_bounds {olds news : List MeasureValue} {before : List IL.Expr}
    (h : ∀ n ∈ news, Termination.order? n = some .int → Holds old τ (.le (.nat 0) n.expr)) :
    ∀ e ∈ Termination.bounds before olds news, Holds old τ e := by
  induction olds generalizing news before with
  | nil => simp [Termination.bounds]
  | cons o olds ih =>
    cases news with
    | nil => simp [Termination.bounds]
    | cons n news =>
      cases hcommon : Termination.commonOrder? o n with
      | none => simp [Termination.bounds, hcommon]
      | some order =>
        simp only [Termination.bounds, hcommon, List.forall_mem_append]
        refine ⟨?_, ih fun m hm => h m (List.mem_cons_of_mem _ hm)⟩
        by_cases hint : order = .int
        · subst hint
          have hpos := h n (List.mem_cons_self ..) (orders_of_common hcommon).2
          simpa using fun _ => hpos
        · simp [hint]

/-- A variable whose values have a type with an order without infinite descent: not of a type
parameter, and not an integer that may be negative. -/
structure Descends (σ : M.Valuation) (b : Source.Binder) : Prop where
  sort : M.carrier b.2.sort (σ b.1)
  compared : ∀ p, b.2 ≠ .param p
  nonneg : b.2 = .int ∨ b.2 = .nat → 0 ≤ M.toInt (σ b.1)

theorem order?_isSome {t : Typ} {e : IL.Expr} (h : ∀ p, t ≠ .param p) :
    (Termination.order? ⟨t, e, false⟩).isSome := by
  cases t with
  | param p => exact absurd rfl (h p)
  | _ => rfl

/-- An integer order is that of integers or natural numbers. -/
theorem int_or_nat_of_order {t : Typ} {e : IL.Expr}
    (h : Termination.order? ⟨t, e, false⟩ = some .int) : t = .int ∨ t = .nat := by
  cases t <;> simp_all [Termination.order?]

/-- Variables that the generated formula calls smaller have lower heights. -/
theorem heightsOf_lex {n : Nat} {vars : List Source.Binder} (hfinite : M.FiniteCollections)
    (hM : M.Collections) (hranked : M.Ranked) (hnull : τ "null" = nil)
    (hold : ∀ b ∈ vars, τ b.1 = σ b.1 ∧ M.carrier b.2.sort (σ b.1))
    (hnew : ∀ b ∈ vars, τ (Naming.renamed b.1 n) = σ' b.1 ∧ Descends σ' b)
    (h : Holds old τ (Termination.decreases false (Induction.varValues vars)
      (Induction.varValues (Induction.renamed n vars)))) :
    List.Lex (· < ·) (M.heightsOf nil vars σ') (M.heightsOf nil vars σ) := by
  have hcompared : ∀ x ∈ Source.Binder.components vars, x.grows = false ∧ x.order?.isSome := by
    intro x hx
    obtain ⟨b, hb, rfl⟩ := List.mem_map.1 hx
    exact ⟨rfl, order?_isSome (hnew b hb).2.compared⟩
  have hlex := heights_lex hfinite hM hranked hnull hcompared
    (of_varValues fun b hb => (hold b hb).1 ▸ (hold b hb).2)
    (of_varValues_renamed fun b hb => (hnew b hb).1 ▸ (hnew b hb).2.sort) h
    (holds_bounds fun m hm horder => ?_)
  · rwa [eval_varValues fun b hb => (hold b hb).1,
      eval_varValues_renamed fun b hb => (hnew b hb).1] at hlex
  · simp only [Induction.varValues, Induction.renamed, List.map_map, List.mem_map] at hm
    obtain ⟨b, hb, rfl⟩ := hm
    have hpos := (hnew b hb).2.nonneg (int_or_nat_of_order horder)
    simpa [(hnew b hb).1] using hpos

/-! ## Soundness -/

section

variable {c : Context} {s s' : Progress} {v : View} {binders vars : List Source.Binder}
  {range : Option Source.Expr} {body : Source.Expr}

/-- That induction on a variable of a quantifier has no infinite descent: its type is no type
parameter, and if it is an integer, the range and the where clauses keep it from being negative. -/
structure Induction.Bounded (M : Model) (old ρ : M.Valuation) (binders : List Source.Binder)
    (wheres : IL.Expr) (range : Option IL.Expr) (b : Source.Binder) : Prop where
  compared : ∀ p, b.2 ≠ .param p
  nonneg : b.2 = .int → ∀ σ, Model.Assigns (sortBinders binders) ρ σ → Holds old σ wheres →
    (∀ a ∈ range, Holds old σ a) → 0 ≤ M.toInt (σ b.1)

/-- The variables that are selected are bound variables. -/
theorem mem_of_inductionVars {env : Env} {attr : Induction} {es : List Source.Expr}
    (h : (inductionVars attr binders es).Returns env vars) : ∀ b ∈ vars, b ∈ binders := by
  cases attr with
  | off => simp_all [inductionVars]
  | vars xs =>
    obtain rfl := ExprM.returns_pure.1 h
    exact fun b hb => List.mem_of_mem_filter hb
  | default =>
    simp only [inductionVars, ExprM.returns_bind, ExprM.returns_pure] at h
    obtain ⟨_, _, found, _, rfl⟩ := h
    exact fun b hb => List.mem_of_mem_filter hb

/-- Induction on the variables that are selected is sound, in every model of the prelude with
finite collections: if all obligations of a quantifier hold, then so does the quantifier. The
variables may have any types but type parameters, and integers have to be bounded by the range. -/
theorem induction_sound (hfinite : M.FiniteCollections) (hstate : Model.PreludeState nil old ρ)
    (h : Inducible (s.env c) v s.decl.counter binders range body) {attr : Induction}
    (hvars : (inductionVars attr binders (body :: range.toList)).Returns (s.env c) vars)
    {span : Span} {obligations : List IL.Expr}
    (hrun : (quantifierObligations v span binders vars range body).Runs c s obligations s')
    {i : Info} {triggers : List (List Source.Expr)} {whole : IL.Expr}
    (hwhole : (lowerExpr v (.quant i .all binders range body triggers attr)).Returns (s.env c)
      whole)
    {w : IL.Expr} (hw : (bindersWhere v.heap binders).Returns (s.env c) w)
    {u : Option IL.Expr} (hu : (lowerExpr? v range).Returns (s.env c) u)
    (hbounded : ∀ b ∈ vars, Induction.Bounded M old ρ binders w u b)
    (hhold : ∀ o ∈ obligations, Holds old ρ o) : Holds old ρ whole := by
  obtain ⟨w₁, u₁, y, goal, hw₁, hu₁, -, hgoal, hparts, hquant⟩ := holds_quantifier (M := M) hwhole
  obtain rfl := hw.unique hw₁
  obtain rfl := hu.unique hu₁
  have hsub := mem_of_inductionVars hvars
  refine (hquant old ρ).2 (quantifierObligations_sound_of (heightsOf_wf nil vars) h hsub hrun hhold
    hw hgoal fun {m σ σ' τ} hm hσ _ hσ' hwhere' hfails hτ hvalues hless => ?_)
  have hrange : ∀ a ∈ u, Holds old σ' a := by
    intro a ha
    by_contra hout
    exact hfails ((hparts old σ').2 fun hall => absurd (hall a ha) hout)
  have hsort : ∀ {σ : M.Valuation}, Model.Assigns (sortBinders binders) ρ σ →
      ∀ b ∈ binders, M.carrier b.2.sort (σ b.1) := fun hσ b hb =>
    hσ.carrier (by simpa using h.distinct) (List.mem_map_of_mem (f := fun b => (b.1, b.2.sort)) hb)
  refine heightsOf_lex hfinite (Prelude.collections_of_prelude hstate.toSatisfiesPrelude)
    (Prelude.ranked_of_prelude hstate.facts) ?_ (fun b hb => ?_) (fun b hb => ?_) hless
  · -- neither bound variables nor their copies are `null`
    have hnull : Reserved (s.env c) v "null" := .const (by simp [preludeConstants])
    rw [hτ.of_notMem, hσ.of_notMem, hstate.null]
    · rw [sortBinders_names]
      intro hmem
      obtain ⟨b, hb, he⟩ := List.mem_map.1 hmem
      exact h.binder b hb (he ▸ hnull)
    · simp only [sortBinders_names, Induction.renamed, List.map_map, List.mem_map,
        Function.comp_apply]
      rintro ⟨b, hb, he⟩
      exact h.copy b hb m hm (he ▸ hnull)
  · exact ⟨(hvalues b (hsub b hb)).1, hsort hσ b (hsub b hb)⟩
  · refine ⟨(hvalues b (hsub b hb)).2, hsort hσ' b (hsub b hb), (hbounded b hb).compared, ?_⟩
    rintro (hint | hnat)
    · exact (hbounded b hb).nonneg hint σ' hσ' hwhere' hrange
    · exact (h.inductive hσ' hw hwhere' (hsub b hb)).nonneg hnat

end

/-! ## Integers -/

namespace Integers

/-- That an integer is at least zero. -/
def bound : Source.Expr := .mkRel default .le (.mkInt default 0) (.mkVar default "k" .int)

/-- The goal that integers within a range are at least zero, by induction on the integer. -/
def goal (range : Option Source.Expr) : Source.Expr :=
  .quant ⟨default, .bool⟩ .all [("k", .int)] range bound [] (.vars ["k"])

theorem inducible {range : Option Source.Expr} (h : ∀ e ∈ range, e = bound) :
    Inducible (Progress.env {} eagerContext) entryView 0 [("k", .int)] range bound := by
  have hbound : ∀ e ∈ bound :: range.toList, e = bound := by
    simpa using h
  refine Nonneg.inducible_of (fun e he => ?_) fun e he x hx => ?_
  · rw [hbound e he]
    simp [bound, Source.Expr.mkRel, Source.Expr.mkInt, Source.Expr.mkVar, Source.Expr.Scoped]
  · rw [hbound e he] at hx
    simpa [bound, Source.Expr.mkRel, Source.Expr.mkInt, Source.Expr.mkVar,
      Source.Expr.freeVars] using hx

/-- The bound of the variable or of its copy. -/
def boundAt (k : String) : IL.Expr := .le (.nat 0) (.var k)

/-- What is to be proved of a formula about the variable: that it holds if it does for smaller
values of the copy. -/
def obligation (g : String → IL.Expr) : IL.Expr :=
  .all [("k", .int)] [] (.imp (.all [("k%1", .int)] [] (.imp (.lt (.var "k%1") (.var "k"))
    (g "k%1"))) (g "k"))

theorem holds_boundAt {k : String} : Holds old ρ (boundAt k) ↔ 0 ≤ M.toInt (ρ k) := by
  simp [boundAt]

theorem holds_obligation {g : String → IL.Expr} :
    Holds old ρ (obligation g) ↔ ∀ n, (∀ m < n, Holds old (Function.update
      (Function.update ρ "k" (M.ofInt n)) "k%1" (M.ofInt m)) (g "k%1")) →
        Holds old (Function.update ρ "k" (M.ofInt n)) (g "k") := by
  simp [obligation, Model.assigns_cons, M.carrier_int]

/-- Below every integer there is a negative one. -/
theorem holds_obligation_boundAt : Holds old ρ (obligation boundAt) := by
  refine holds_obligation.2 fun n hhyp => holds_boundAt.2 ?_
  have hat := holds_boundAt.1 (hhyp (min n 0 - 1) (by omega))
  simp only [Function.update_self, M.toInt_ofInt] at hat
  omega

theorem not_holds_bound : ¬ Holds old ρ (.all [("k", .int)] [] (boundAt "k")) := by
  intro h
  have hat := holds_boundAt.1 ((holds_all _ _ _).1 h (Function.update ρ "k" (M.ofInt (-1)))
    (Model.assigns_cons.2 ⟨_, (M.carrier_int _).2 ⟨_, rfl⟩, Model.assigns_nil.2 rfl⟩))
  simp at hat

/-- A state where the constants of the prelude have their values. -/
abbrev state : (Standard.model Interval.nothing).Valuation := Interval.state 0 0 0

end Integers

/-- Integers from zero on are at least zero, by induction. -/
theorem induction_sound_integers :
    ∃ obligations s' whole, (quantifierObligations entryView default [("k", .int)] [("k", .int)]
        (some Integers.bound) Integers.bound).Runs eagerContext {} obligations s' ∧
      (lowerExpr entryView (Integers.goal (some Integers.bound))).Returns
        (Progress.env {} eagerContext) whole ∧
      Holds Integers.state Integers.state whole := by
  have hrun : (quantifierObligations entryView default [("k", .int)] [("k", .int)]
      (some Integers.bound) Integers.bound).Runs eagerContext {}
        [Integers.obligation fun k => .imp (Integers.boundAt k) (Integers.boundAt k)]
        { decl := { counter := 1 } } := rfl
  have hwhole : (lowerExpr entryView (Integers.goal (some Integers.bound))).Returns
      (Progress.env {} eagerContext)
      (.all [("k", .int)] [] (.imp (Integers.boundAt "k") (Integers.boundAt "k"))) := rfl
  refine ⟨_, _, _, hrun, hwhole, ?_⟩
  have hvars : (inductionVars (.vars ["k"]) [("k", .int)] [Integers.bound, Integers.bound]).Returns
      (Progress.env {} eagerContext) [("k", .int)] := rfl
  refine induction_sound (Standard.finiteCollections Interval.nothing)
    (Interval.preludeState 0 0 0) (Integers.inducible (by simp)) hvars hrun
    hwhole (w := .tt) rfl (u := some (Integers.boundAt "k")) rfl ?_ ?_
  · intro b hb
    obtain rfl := List.mem_singleton.1 hb
    refine ⟨fun p h => ?_, fun _ σ _ _ hrange => Integers.holds_boundAt.1 (hrange _ rfl)⟩
    cases h
  · simp only [List.mem_singleton, forall_eq]
    exact Integers.holds_obligation.2 fun n _ => (holds_imp _ _).2 id

/-- Without a bound for the integer its only obligation holds, since the hypothesis fails at
negative integers below any other one, and the goal does not hold. -/
theorem induction_unsound_unbounded :
    ∃ obligations s' whole,
      (inductionVars (.vars ["k"]) [("k", .int)] [Integers.bound]).Returns
        (Progress.env {} eagerContext) [("k", .int)] ∧
      (quantifierObligations entryView default [("k", .int)] [("k", .int)] none
        Integers.bound).Runs eagerContext {} obligations s' ∧
      (lowerExpr entryView (Integers.goal none)).Returns (Progress.env {} eagerContext) whole ∧
      Inducible (Progress.env {} eagerContext) entryView 0 [("k", .int)] none Integers.bound ∧
      (Standard.model Interval.nothing).FiniteCollections ∧
      Model.PreludeState (M := Standard.model Interval.nothing) (.ref .null) Integers.state
        Integers.state ∧
      (∀ o ∈ obligations, Holds Integers.state Integers.state o) ∧
      ¬ Holds Integers.state Integers.state whole := by
  refine ⟨[Integers.obligation Integers.boundAt], { decl := { counter := 1 } },
    .all [("k", .int)] [] (Integers.boundAt "k"), rfl, rfl, rfl, Integers.inducible (by simp),
    Standard.finiteCollections _, Interval.preludeState 0 0 0, ?_, ?_⟩
  · simp only [List.mem_singleton, forall_eq]
    exact Integers.holds_obligation_boundAt
  · exact Integers.not_holds_bound

end ContractLowering
