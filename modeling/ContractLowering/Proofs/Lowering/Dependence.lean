import ContractLowering.Proofs.Lowering.Reads

/-!
# Checked functions depend on their reads clauses

Quantifiers and comprehensions range over values of both heaps, and match cases are chosen by the
same tests in both. With the operations that read the heap, this covers every expression: one whose
checks hold has the same value in a later heap that agrees with the current one on the reads clause
(`lowerExpr_unchanged`), if it does not look at what is allocated.
-/

namespace ContractLowering

open IL Source Model

variable {M : Model} {Δ : Vocabulary} {env : Env} {v : View} {hasThis : Bool} {Γ₀ Γ : Typing}
  {limits : Limits} {frame : List Source.Expr} {x : String} {old ρ σ τ : M.Valuation} {h' : M.Val}
  {G : Sorts}

/-! ## Quantifiers -/

/-- A quantifier whose matrix holds for the same values in both states. -/
theorem unchanged_quantify {q : IL.Quantifier} {bs : List IL.Binder} {ts : List Trigger}
    {m : IL.Expr} (hx : x ∉ bs.map (·.1))
    (hnil : bs = [] → Unchanged old σ (Function.update σ x h') m)
    (h : ∀ τ, Assigns bs σ τ → (Holds old (Function.update τ x h') m ↔ Holds old τ m)) :
    Unchanged old σ (Function.update σ x h') (.quantify q bs ts m) := by
  unfold Expr.quantify
  split
  · rename_i hempty
    exact hnil (List.isEmpty_iff.1 hempty)
  · rintro b ⟨⟩
    cases q with
    | all =>
      rw [Expr.eval_all, Expr.eval_all]
      congr 1
      refine propext ⟨fun hall τ hτ => (h τ hτ).1 (hall _ (hτ.set hx)), fun hall τ' hτ' => ?_⟩
      obtain ⟨τ, hτ, rfl⟩ := hτ'.unset hx
      exact (h τ hτ).2 (hall τ hτ)
    | ex =>
      rw [Expr.eval_ex, Expr.eval_ex]
      congr 1
      refine propext ⟨?_, fun ⟨τ, hτ, hm⟩ => ⟨_, hτ.set hx, (h τ hτ).2 hm⟩⟩
      rintro ⟨τ', hτ', hm⟩
      obtain ⟨τ, hτ, rfl⟩ := hτ'.unset hx
      exact ⟨τ, hτ, (h τ hτ).1 hm⟩

theorem holds_quantMatrix {q : Source.Quantifier} {w b : IL.Expr} {r : Option IL.Expr} :
    Holds old σ (quantMatrix q w r b) ↔ match q with
      | .all => Holds old σ w → Holds old σ (r.getD .tt) → Holds old σ b
      | .ex => Holds old σ w ∧ Holds old σ (r.getD .tt) ∧ Holds old σ b := by
  cases q <;> simp [quantMatrix]

theorem holds_range {r : Option Source.Expr} {a : Option IL.Expr}
    (ha : (lowerExpr? v r).Returns env a) :
    (∀ e ∈ r, Succeeds env old v σ e) ↔ Holds old σ (a.getD .tt) := by
  cases r with
  | none =>
    obtain rfl := ExprM.returns_pure.1 ha
    simp
  | some e =>
    obtain ⟨b, hb, ha⟩ := ExprM.returns_bind.1 ha
    obtain rfl := ExprM.returns_pure.1 ha
    simpa using succeeds_iff hb

theorem Unchanged.getD {σ' : M.Valuation} {a : Option IL.Expr} (h : ∀ b ∈ a, Unchanged old σ σ' b) :
    Unchanged old σ σ' (a.getD .tt) := by
  cases a with
  | none => exact .bool true
  | some b => exact h b rfl

/-- A quantifier. -/
theorem Replays.quant (h : Replay Δ env v hasThis Γ₀ limits frame x old ρ h') {i : Info}
    {q : Source.Quantifier} {bs : List Source.Binder} {r : Option Source.Expr} {e : Source.Expr}
    {ts : List (List Source.Expr)} {ind : Induction}
    (hbs : ∀ b ∈ bs, (Discipline.beside env v Γ₀).binder b.1 ∧ b.2.Resolved env.context)
    (ihr : ∀ a ∈ r, Replays Δ env v hasThis Γ₀ limits x old ρ h' (Γ.bind bs) a)
    (ihe : Replays Δ env v hasThis Γ₀ limits x old ρ h' (Γ.bind bs) e) :
    Replays Δ env v hasThis Γ₀ limits x old ρ h' Γ (.quant i q bs r e ts ind) := by
  intro σ hσ ht c hc
  obtain ⟨w, hw, range, hrange, body, hbody, chosen, -, rfl⟩ := returns_lowerExpr_quant.1 hc
  have hnames : ∀ b ∈ bs, (Discipline.checking env v Γ₀).binder b.1 := fun b hb => (hbs b hb).1
  -- Where the variables have values of their types in both heaps.
  have hparts : ∀ τ, Assigns (sortBinders bs) σ τ →
      (∀ a ∈ r, Point.Tame env limits old ρ x h' ⟨v, a, τ⟩) →
      (∀ b ∈ some e, (∀ a ∈ r, Succeeds env old v τ a) →
        Point.Tame env limits old ρ x h' ⟨v, b, τ⟩) →
      Unchanged old τ (Function.update τ x h') (range.getD .tt) ∧
        (Holds old τ (range.getD .tt) → Unchanged old τ (Function.update τ x h') body) := by
    intro τ hτ hr he
    have hbelow := hσ.assigns h.checkable.signed hnames hτ
    have hsame := unchanged_lowerExpr? (fun a ha => ihr a ha τ hbelow (hr a ha)) hrange
    refine ⟨.getD hsame, fun hholds => ?_⟩
    exact ihe τ hbelow (he e rfl ((holds_range hrange).2 hholds)) body hbody
  refine unchanged_quantify (by simpa using heap_notMem h.heap hnames) (fun hnil => ?_)
    fun τ hτ => ?_
  · obtain rfl : bs = [] := by simpa [sortBinders] using hnil
    have hconj : w = .conj [] := by simpa [bindersWhere, whereClauses] using hw
    obtain rfl : w = .tt := hconj
    rcases ht.bound rfl hw (assigns_nil.2 rfl) with ⟨-, -, hr, he⟩ | hcase
    · obtain ⟨hsame, hbody⟩ := hparts σ (assigns_nil.2 rfl) hr he
      have htrue : Unchanged old σ (Function.update σ x h') .tt := .bool true
      cases q with
      | all =>
        refine .imp (.conj (.cons htrue fun _ => .cons hsame fun _ => .nil)) fun hholds => ?_
        exact hbody (by simpa using hholds)
      | ex => exact .conj (.cons htrue fun _ => .cons hsame fun hholds =>
          .cons (hbody hholds) fun _ => .nil)
    · simp at hcase
  · rw [holds_quantMatrix, holds_quantMatrix]
    rcases ht.bound rfl hw hτ with ⟨h₁, h₂, hr, he⟩ | ⟨h₁, h₂⟩ | ⟨h₁, h₂, hidle⟩ | ⟨h₁, h₂, hidle⟩
    · obtain ⟨hsame, hbody⟩ := hparts τ hτ hr he
      cases q with
      | all =>
        simp only [h₁, h₂, true_implies, hsame.holds]
        exact forall_congr' fun hholds => (hbody hholds).holds
      | ex =>
        simp only [h₁, h₂, true_and, hsame.holds]
        exact and_congr_right fun hholds => (hbody hholds).holds
    · cases q <;> simp [h₁, h₂]
    · cases q <;> simpa [Expr.Idle, h₁, h₂, ← holds_range hrange, ← succeeds_iff hbody] using hidle
    · cases q <;> simpa [Expr.Idle, h₁, h₂, ← holds_range hrange, ← succeeds_iff hbody] using hidle

/-! ## Comprehensions -/

/-- The content of a box for a type. -/
def IL.Model.unboxed (M : Model) (t : Typ) (c : M.Val) : M.Val :=
  match t.boxSort? with
  | none => c
  | some s => M.app s.unboxName [c]

theorem eval_unbox_var {t : Typ} {y : String} :
    (Boxing.unbox t (.var y)).eval old σ = M.unboxed t (σ y) := by
  unfold Boxing.unbox Model.unboxed
  cases t.boxSort? <;> simp [Boxing.applied?]

theorem IL.Model.Sorted.unboxed (hM : M.Sorted Δ) (hΔ : Δ.Operations) {c : M.Val}
    (hc : M.carrier Prelude.boxSort c) (t : Typ) : M.carrier t.sort (M.unboxed t c) := by
  unfold Model.unboxed
  cases hs : t.boxSort? with
  | none => exact (Boxing.sort_of_isBoxed (t := t) (by simp [Typ.isBoxed, hs])) ▸ hc
  | some s => exact Boxing.sort_of_boxSort? hs ▸ hM.app (hΔ.unbox s) (.cons hc .nil)

/-- What is said of the content of a box is said of a value of the variable. -/
theorem eval_letUnboxed (hS : Signed Δ env) {b : Source.Binder} {m : IL.Expr} {s : Srt}
    (hm : SortedAs Δ env v hasThis (Γ.bind [b]) m s) (hG : Scope Δ env v hasThis (Γ.bind [b]) G)
    (c : M.Val) : (letUnboxed b m).eval old (Function.update σ Naming.boxVar c) =
      m.eval old (Function.update σ b.1 (M.unboxed b.2 c)) := by
  rw [letUnboxed, Expr.eval_lets]
  simp only [List.map_cons, List.map_nil, bind_cons, bind_nil, eval_unbox_var,
    Function.update_self]
  refine hm.eval_congr hS hG fun y hy => ?_
  by_cases hyb : y = b.1
  · simp [hyb]
  · rw [Function.update_of_ne hyb, Function.update_of_ne hyb,
      Function.update_of_ne (hy.ne_generated hG .box)]

/-- What a comprehension with a term says of a box. -/
theorem holds_collected (hS : Signed Δ env) {bs : List Source.Binder} {ts : List Trigger}
    {w r m : IL.Expr} (hbs : ∀ b ∈ bs, ¬ Reserved env v b.1)
    (hw : SortedAs Δ env v hasThis (Γ.bind bs) w .bool)
    (hr : SortedAs Δ env v hasThis (Γ.bind bs) r .bool)
    (hm : SortedAs Δ env v hasThis (Γ.bind bs) m Prelude.boxSort)
    (hG : Scope Δ env v hasThis (Γ.bind bs) G) (c : M.Val) :
    Holds old (Function.update σ Naming.boxVar c)
      (.ex (sortBinders bs) ts (.conj [w, r, .eq (.var Naming.boxVar) m])) ↔
        ∃ τ, Assigns (sortBinders bs) σ τ ∧ Holds old τ w ∧ Holds old τ r ∧
          c = m.eval old τ := by
  have hfresh : Naming.boxVar ∉ (sortBinders bs).map (·.1) := by
    rw [sortBinders_names]
    intro hmem
    obtain ⟨b, hb, hname⟩ := List.mem_map.1 hmem
    exact hbs b hb (hname ▸ .generated .box)
  have hmatrix : ∀ τ : M.Valuation, Holds old (Function.update τ Naming.boxVar c)
      (.conj [w, r, .eq (.var Naming.boxVar) m]) ↔
        Holds old τ w ∧ Holds old τ r ∧ c = m.eval old τ := by
    intro τ
    have hagree : ∀ y, Mentions env v (Γ.bind bs) y → Function.update τ Naming.boxVar c y = τ y :=
      fun y hy => Function.update_of_ne (hy.ne_generated hG .box) _ _
    simp [hw.holds_congr hS hG hagree, hr.holds_congr hS hG hagree, hm.eval_congr hS hG hagree]
  rw [holds_ex]
  constructor
  · rintro ⟨τ', hτ', hholds⟩
    obtain ⟨τ, hτ, rfl⟩ := hτ'.unset hfresh
    exact ⟨τ, hτ, (hmatrix τ).1 hholds⟩
  · rintro ⟨τ, hτ, hholds⟩
    exact ⟨_, hτ.set hfresh, (hmatrix τ).2 hholds⟩

theorem eval_boxLambda {m : IL.Expr} : (boxLambda m).eval old σ = M.lam fun as =>
    if 1 = as.length then m.eval old (bind ([Naming.boxVar].zip as) σ) else M.ofProp False := by
  rw [boxLambda, Expr.eval_lambda]
  rfl

/-- A set of the boxes that satisfy a predicate, which is the same in both heaps. -/
theorem Replay.eval_fromPredicate (h : Replay Δ env v hasThis Γ₀ limits frame x old ρ h')
    {p : IL.Expr} (hp : ∀ c, M.carrier Prelude.boxSort c →
      (Holds old (Function.update (Function.update σ x h') Naming.boxVar c) p ↔
        Holds old (Function.update σ Naming.boxVar c) p)) :
    (Prelude.setFromPredicate (boxLambda p)).eval old (Function.update σ x h') =
      (Prelude.setFromPredicate (boxLambda p)).eval old σ := by
  simp only [Prelude.setFromPredicate, Expr.eval_app, List.map_cons, List.map_nil, eval_boxLambda]
  exact h.extensional.fromPredicate _ _ fun c hc => by simpa [Holds] using hp c hc

section

variable {e r : Source.Expr} {bs : List Source.Binder} {body : Option Source.Expr}
  {w range : IL.Expr}

/-- The where clauses and the range of a comprehension hold for the same values in both heaps, with
anything else that is the same where they hold. -/
theorem Replay.range_iff (h : Replay Δ env v hasThis Γ₀ limits frame x old ρ h')
    (hσ : Below Δ env v hasThis Γ₀ Γ ρ σ) (ht : Point.Tame env limits old ρ x h' ⟨v, e, σ⟩)
    (he : e.bound? = some (bs, some r, body))
    (hidle : ∀ υ : M.Valuation, e.Idle env old v υ → ¬ Succeeds env old v υ r)
    (hbs : ∀ b ∈ bs, (Discipline.checking env v Γ₀).binder b.1)
    (ihr : Replays Δ env v hasThis Γ₀ limits x old ρ h' (Γ.bind bs) r)
    (hw : (bindersWhere v.heap bs).Returns env w) (hrange : (lowerExpr v r).Returns env range)
    (hτ : Assigns (sortBinders bs) σ τ) {P P' : Prop}
    (hP : Holds old τ range → (∀ b ∈ body, Point.Tame env limits old ρ x h' ⟨v, b, τ⟩) →
      (P' ↔ P)) :
    Holds old (Function.update τ x h') w ∧ Holds old (Function.update τ x h') range ∧ P' ↔
      Holds old τ w ∧ Holds old τ range ∧ P := by
  rcases ht.bound he hw hτ with ⟨h₁, h₂, hr, hb⟩ | ⟨h₁, h₂⟩ | ⟨h₁, h₂, hnot⟩ | ⟨h₁, h₂, hnot⟩
  · have hsame := ihr τ (hσ.assigns h.checkable.signed hbs hτ) (hr r rfl) range hrange
    simp only [h₁, h₂, true_and, hsame.holds]
    refine and_congr_right fun hholds => hP hholds fun b hmem => hb b hmem fun a ha => ?_
    obtain rfl := Option.mem_some.1 ha
    exact (succeeds_iff hrange).2 hholds
  · simp [h₁, h₂]
  · have hfails : ¬ Holds old τ range := fun hholds =>
      hidle τ hnot ((succeeds_iff hrange).2 hholds)
    simp [h₂, hfails]
  · have hfails : ¬ Holds old (Function.update τ x h') range := fun hholds =>
      hidle _ hnot ((succeeds_iff hrange).2 hholds)
    simp [h₁, hfails]

/-- The where clauses of bound variables are Boolean below them. -/
theorem bindersWhere_sortedAs (hS : Signed Δ env) (hnodup : (bs.map (·.1)).Nodup)
    (hbs : ∀ b ∈ bs, ¬ Reserved env v b.1 ∧ b.2.Resolved env.context)
    (hw : (bindersWhere v.heap bs).Returns env w) :
    SortedAs Δ env v hasThis (Γ.bind bs) w .bool := by
  obtain ⟨w', hw', hsorted⟩ := bindersWhere_sorted v hasThis hS hbs
  obtain rfl := hw.unique hw'
  exact fun G hG => hsorted hG fun b hb => (hG.vars (Typing.bind_of_nodup hnodup hb)).2

/-- What a comprehension over one variable says of a box, it says in both heaps. -/
theorem Replay.domain_iff (h : Replay Δ env v hasThis Γ₀ limits frame x old ρ h')
    (hσ : Below Δ env v hasThis Γ₀ Γ ρ σ) (ht : Point.Tame env limits old ρ x h' ⟨v, e, σ⟩)
    {b : Source.Binder} (he : e.bound? = some ([b], some r, body))
    (hidle : ∀ υ : M.Valuation, e.Idle env old v υ → ¬ Succeeds env old v υ r)
    (hb : (Discipline.checking env v Γ₀).binder b.1)
    (ihr : Replays Δ env v hasThis Γ₀ limits x old ρ h' (Γ.bind [b]) r)
    (hw : (bindersWhere v.heap [b]).Returns env w) (hrange : (lowerExpr v r).Returns env range)
    (hsorted : SortedAs Δ env v hasThis (Γ.bind [b]) (.conj [w, range]) .bool) {c : M.Val}
    (hc : M.carrier Prelude.boxSort c) :
    Holds old (Function.update (Function.update σ x h') Naming.boxVar c)
        (letUnboxed b (.conj [w, range])) ↔
      Holds old (Function.update σ Naming.boxVar c) (letUnboxed b (.conj [w, range])) := by
  have hS := h.checkable.signed
  obtain ⟨G, hG, -⟩ := hσ.scope
  have hnames : ∀ d ∈ [b], (Discipline.checking env v Γ₀).binder d.1 :=
    List.forall_mem_singleton.2 hb
  have hscope := hG.bind hS fun d hd => (hnames d hd).1
  have hne : x ≠ b.1 := by simpa using heap_notMem h.heap hnames
  have hτ : Assigns (sortBinders [b]) σ (Function.update σ b.1 (M.unboxed b.2 c)) :=
    assigns_cons.2 ⟨_, h.sorted.unboxed hS.covers.operations hc b.2, assigns_nil.2 rfl⟩
  have hiff := h.range_iff hσ ht he hidle hnames ihr hw hrange hτ fun _ _ => Iff.refl True
  show M.truth _ ↔ M.truth _
  rw [eval_letUnboxed hS hsorted hscope, eval_letUnboxed hS hsorted hscope,
    Function.update_comm hne]
  show Holds old _ _ ↔ Holds old _ _
  simpa using hiff

/-- The two forms of the predicate of a set comprehension. -/
theorem returns_setPredicate {i : Info} {term : Option Source.Expr} {p : IL.Expr}
    (hp : (setPredicate v i bs term w range).Returns env p) :
    (∃ b, bs = [b] ∧ p = letUnboxed b (.conj [w, range])) ∨
      ∃ t elem y ts, term = some t ∧ (elemTyp i.typ).Returns env elem ∧
        (lowerExpr v t).Returns env y ∧ p = .ex (sortBinders bs) ts (.conj [w, range,
          .eq (.var Naming.boxVar) (Boxing.box elem (Boxing.convert t.typ elem y))]) := by
  unfold setPredicate at hp
  split at hp
  · exact .inl ⟨_, rfl, ExprM.returns_pure.1 hp⟩
  · cases term with
    | none => exact absurd hp ExprM.returns_broken
    | some t =>
      simp only [exAuto, ExprM.returns_bind, ExprM.returns_pure] at hp
      obtain ⟨elem, helem, y, hy, ts, -, rfl⟩ := hp
      exact .inr ⟨t, elem, y, ts, rfl, helem, hy, rfl⟩

end

/-- A set comprehension. -/
theorem Replays.setComp (h : Replay Δ env v hasThis Γ₀ limits frame x old ρ h') {i : Info}
    {bs : List Source.Binder} {r : Source.Expr} {t : Option Source.Expr} {elem : Typ}
    (hnodup : (bs.map (·.1)).Nodup)
    (hbs : ∀ b ∈ bs, (Discipline.beside env v Γ₀).binder b.1 ∧ b.2.Resolved env.context)
    (htyp : i.typ = .set elem) (hbool : r.typ.sort = .bool)
    (helem : ∀ y ∈ t, y.typ.Fits elem)
    (hr : WellTyped env.context (.beside env v Γ₀) hasThis (Γ.bind bs) r)
    (ht : ∀ y ∈ t, WellTyped env.context (.beside env v Γ₀) hasThis (Γ.bind bs) y)
    (ihr : Replays Δ env v hasThis Γ₀ limits x old ρ h' (Γ.bind bs) r)
    (iht : ∀ y ∈ t, Replays Δ env v hasThis Γ₀ limits x old ρ h' (Γ.bind bs) y) :
    Replays Δ env v hasThis Γ₀ limits x old ρ h' Γ (.setComp i bs r t) := by
  intro σ hσ htame c hc
  have hS := h.checkable.signed
  have hΔ := hS.covers.operations
  have hnames : ∀ b ∈ bs, (Discipline.checking env v Γ₀).binder b.1 := fun b hb => (hbs b hb).1
  have hfree : ∀ b ∈ bs, ¬ Reserved env v b.1 := fun b hb => (hbs b hb).1.1
  have hlowers : ∀ {e}, WellTyped env.context (.beside env v Γ₀) hasThis (Γ.bind bs) e →
      LowersSorted Δ env v hasThis (Γ.bind bs) e :=
    fun he => lowerExpr_sorted hS he fun _ hx hr => hx.1 hr
  obtain ⟨w, hw, range, hrange, p, hp, rfl⟩ := returns_lowerExpr_setComp.1 hc
  obtain ⟨G, hG, -⟩ := hσ.scope
  have hscope := hG.bind hS hfree
  have hws : SortedAs Δ env v hasThis (Γ.bind bs) w .bool :=
    bindersWhere_sortedAs hS hnodup (fun b hb => ⟨hfree b hb, (hbs b hb).2⟩) hw
  have hranges : SortedAs Δ env v hasThis (Γ.bind bs) range .bool := by
    obtain ⟨a, ha, hsorted⟩ := hlowers hr
    obtain rfl := hrange.unique ha
    exact hbool ▸ hsorted
  refine .of_eval_app (fun s => by cases s <;> decide) (h.eval_fromPredicate fun c hbox => ?_)
  rcases returns_setPredicate hp with ⟨b, rfl, rfl⟩ | ⟨t, elem', y, ts, rfl, helem', hy, rfl⟩
  · exact h.domain_iff hσ htame rfl (fun _ hidle => hidle) (hnames b (.head _)) ihr hw hrange
      (fun G hG => Expr.sort?_conj₂ (hws G hG) (hranges G hG)) hbox
  · obtain rfl : elem' = elem := by simpa [htyp, elemTyp] using helem'
    obtain ⟨y', hy', hys⟩ := hlowers (ht t rfl)
    obtain rfl := hy.unique hy'
    have hmember : SortedAs Δ env v hasThis (Γ.bind bs)
        (Boxing.box elem' (Boxing.convert t.typ elem' y)) Prelude.boxSort :=
      fun G hG => Boxing.sort?_box hΔ (Boxing.sort?_convert hΔ (helem t rfl) (hys G hG))
    have hmatrix : ∀ τ, Assigns (sortBinders bs) σ τ →
        (Holds old (Function.update τ x h') w ∧ Holds old (Function.update τ x h') range ∧
          c = (Boxing.box elem' (Boxing.convert t.typ elem' y)).eval old (Function.update τ x h') ↔
        Holds old τ w ∧ Holds old τ range ∧
          c = (Boxing.box elem' (Boxing.convert t.typ elem' y)).eval old τ) := by
      refine fun τ hτ => h.range_iff hσ htame rfl (fun _ hidle => hidle) hnames ihr hw hrange hτ
        fun _ hterm => ?_
      have hsame := iht t rfl τ (hσ.assigns hS hnames hτ) (hterm t rfl) y hy
      rw [hsame.convert.box.eval]
    have hx : x ∉ (sortBinders bs).map (·.1) := by simpa using heap_notMem h.heap hnames
    rw [holds_collected hS hfree hws hranges hmember hscope,
      holds_collected hS hfree hws hranges hmember hscope]
    constructor
    · rintro ⟨τ', hτ', hholds⟩
      obtain ⟨τ, hτ, rfl⟩ := hτ'.unset hx
      exact ⟨τ, hτ, (hmatrix τ hτ).1 hholds⟩
    · rintro ⟨τ, hτ, hholds⟩
      exact ⟨_, hτ.set hx, (hmatrix τ hτ).2 hholds⟩

/-- A map comprehension. -/
theorem Replays.mapComp (h : Replay Δ env v hasThis Γ₀ limits frame x old ρ h') {i : Info}
    {b : Source.Binder} {r t : Source.Expr} {key value : Typ}
    (hb : (Discipline.beside env v Γ₀).binder b.1 ∧ b.2.Resolved env.context)
    (htyp : i.typ = .map key value) (hbool : r.typ.sort = .bool) (hvalue : t.typ.Fits value)
    (hr : WellTyped env.context (.beside env v Γ₀) hasThis (Γ.bind [b]) r)
    (ht : WellTyped env.context (.beside env v Γ₀) hasThis (Γ.bind [b]) t)
    (ihr : Replays Δ env v hasThis Γ₀ limits x old ρ h' (Γ.bind [b]) r)
    (iht : Replays Δ env v hasThis Γ₀ limits x old ρ h' (Γ.bind [b]) t) :
    Replays Δ env v hasThis Γ₀ limits x old ρ h' Γ (.mapComp i b r t) := by
  intro σ hσ htame c hc
  have hS := h.checkable.signed
  have hΔ := hS.covers.operations
  have hnames : ∀ d ∈ [b], (Discipline.checking env v Γ₀).binder d.1 :=
    List.forall_mem_singleton.2 hb.1
  have hlowers : ∀ {e}, WellTyped env.context (.beside env v Γ₀) hasThis (Γ.bind [b]) e →
      LowersSorted Δ env v hasThis (Γ.bind [b]) e :=
    fun he => lowerExpr_sorted hS he fun _ hx hr => hx.1 hr
  simp only [lowerExpr, htyp, mapTyps, ExprM.returns_bind, ExprM.returns_pure,
    exists_eq_left] at hc
  obtain ⟨w, hw, range, hrange, y, hy, rfl⟩ := hc
  obtain ⟨G, hG, -⟩ := hσ.scope
  have hscope := hG.bind hS fun d hd => (hnames d hd).1
  have hws : SortedAs Δ env v hasThis (Γ.bind [b]) w .bool :=
    bindersWhere_sortedAs hS (by simp) (List.forall_mem_singleton.2 ⟨hb.1.1, hb.2⟩) hw
  obtain ⟨a, ha, hranges⟩ := hlowers hr
  obtain rfl := hrange.unique ha
  obtain ⟨a, ha, hys⟩ := hlowers ht
  obtain rfl := hy.unique ha
  have hdomain : SortedAs Δ env v hasThis (Γ.bind [b]) (.conj [w, range]) .bool :=
    fun G hG => Expr.sort?_conj₂ (hws G hG) ((hranges G hG).trans (congrArg some hbool))
  have hmapped : SortedAs Δ env v hasThis (Γ.bind [b])
      (Boxing.box value (Boxing.convert t.typ value y)) Prelude.boxSort :=
    fun G hG => Boxing.sort?_box hΔ (Boxing.sort?_convert hΔ hvalue (hys G hG))
  have hne : x ≠ b.1 := by simpa using heap_notMem h.heap hnames
  refine .of_eval_app (fun s => by cases s <;> decide) ?_
  rw [Expr.eval_app, Expr.eval_app, List.map_cons, List.map_cons, List.map_cons, List.map_cons,
    h.eval_fromPredicate fun c hbox => ?_]
  · simp only [Prelude.setFromPredicate, Expr.eval_app, List.map_cons, List.map_nil,
      eval_boxLambda]
    refine h.extensional.glue _ _ _ fun c hbox hin => ?_
    simp only [List.length_cons, List.length_nil, zero_add, if_true, List.zip_cons_cons,
      List.zip_nil_left, bind_cons, bind_nil] at hin ⊢
    rw [eval_letUnboxed hS hdomain hscope] at hin
    rw [eval_letUnboxed hS hmapped hscope, eval_letUnboxed hS hmapped hscope,
      Function.update_comm hne]
    have hτ : Assigns (sortBinders [b]) σ (Function.update σ b.1 (M.unboxed b.2 c)) :=
      assigns_cons.2 ⟨_, h.sorted.unboxed hΔ hbox b.2, assigns_nil.2 rfl⟩
    obtain ⟨hwhere, hholds⟩ : Holds old _ w ∧ Holds old _ range := by
      simpa using (holds_conj [w, range]).1 hin
    have hpart := htame.part (.body rfl ⟨w, hw, hτ, hwhere⟩ fun a ha => by
      obtain rfl := Option.mem_some.1 ha
      exact (succeeds_iff hrange).2 hholds)
    exact (iht _ (hσ.assigns hS hnames hτ) hpart y hy).convert.box.eval
  · exact h.domain_iff hσ htame rfl (fun _ hidle => hidle) hb.1 ihr hw hrange hdomain hbox

/-! ## Lets and matches -/

/-- What is evaluated below values that are the same in both heaps. -/
theorem Replay.unchanged_lets (h : Replay Δ env v hasThis Γ₀ limits frame x old ρ h')
    (hσ : Below Δ env v hasThis Γ₀ Γ ρ σ) {bs : List Source.Binder} {as : List (String × IL.Expr)}
    (hbs : ∀ b ∈ bs, (Discipline.checking env v Γ₀).binder b.1)
    (has : ∀ G, Scope Δ env v hasThis Γ G → List.Forall₂ (fun a s => a.1 = s.1 ∧
      a.2.sort? Δ G = some s.2) as (sortBinders bs))
    (hsame : ∀ p ∈ as, Unchanged old σ (Function.update σ x h') p.2) {a : IL.Expr}
    (ha : ∀ τ, τ = bind (as.map fun p => (p.1, p.2.eval old σ)) σ →
      Below Δ env v hasThis Γ₀ (Γ.bind bs) ρ τ → Unchanged old τ (Function.update τ x h') a) :
    Unchanged old σ (Function.update σ x h') (.lets as a) := by
  obtain ⟨G, hG, hrespects⟩ := hσ.scope
  have hvalues : List.Forall₂ (fun b p => p.1 = b.1 ∧ M.carrier b.2 p.2) (sortBinders bs)
      (as.map fun p => (p.1, p.2.eval old σ)) := by
    rw [List.forall₂_map_right_iff]
    exact (has G hG).flip.imp fun s p hp =>
      ⟨hp.1, Expr.eval_carrier h.sorted h.globals hp.2 hrespects⟩
  have hnames : (as.map fun p => (p.1, p.2.eval old σ)).map (·.1) = bs.map (·.1) := by
    rw [← sortBinders_names, ← List.forall₂_eq_eq_eq, List.forall₂_map_left_iff,
      List.forall₂_map_right_iff]
    exact hvalues.flip.imp fun _ _ hp => hp.1
  refine .lets hsame ?_
  rw [bind_update (hnames ▸ heap_notMem h.heap hbs)]
  exact ha _ rfl (hσ.bind h.checkable.signed hbs hvalues)

theorem eq_nil_of_lowerArms {d : Datatype} {dt : Path} {s : IL.Expr} {result : Typ}
    {arms : List (Pattern × Source.Expr)}
    (h : (lowerArms v d dt s result arms).Returns env none) : arms = [] := by
  cases arms with
  | nil => rfl
  | cons p arms =>
    simp only [lowerArms, ExprM.returns_bind] at h
    obtain ⟨o, -, _, -, _, -, h⟩ := h
    cases o <;> cases ExprM.returns_pure.1 h

/-- A cascade of match cases is unchanged if the case that it selects is: the first one whose test
holds, or the last one. -/
theorem unchanged_lowerArms {σ' : M.Valuation} {d : Datatype} {dt : Path} {s : IL.Expr} {result : Typ}
    {arms : List (Pattern × Source.Expr)} {o : Option IL.Expr} (hs : Unchanged old σ σ' s)
    (harm : ∀ before p after, arms = before ++ p :: after →
      (∀ q ∈ before, ¬ Holds old σ (.app (Naming.isCtor dt q.1.ctor) [s])) →
      after = [] ∨ Holds old σ (.app (Naming.isCtor dt p.1.ctor) [s]) →
      ∀ bindings b, (caseBindings d dt p.1 s).Returns env bindings →
        (lowerExpr v p.2).Returns env b →
        Unchanged old σ σ' (.lets bindings (Boxing.convert p.2.typ result b)))
    (ho : (lowerArms v d dt s result arms).Returns env o) : ∀ a ∈ o, Unchanged old σ σ' a := by
  induction arms generalizing o with
  | nil =>
    obtain rfl := ExprM.returns_pure.1 ho
    simp
  | cons p arms ih =>
    simp only [lowerArms, ExprM.returns_bind] at ho
    obtain ⟨rest, hrest, bindings, hbindings, b, hb, ho⟩ := ho
    cases rest with
    | none =>
      obtain rfl := ExprM.returns_pure.1 ho
      refine fun a ha => Option.mem_some.1 ha ▸ ?_
      exact harm [] p arms rfl (by simp) (.inl (eq_nil_of_lowerArms hrest)) bindings b hbindings hb
    | some cascade =>
      obtain rfl := ExprM.returns_pure.1 ho
      refine fun a ha => Option.mem_some.1 ha ▸ .cond (.app₁ hs) (fun htest => ?_) fun hfails => ?_
      · exact harm [] p arms rfl (by simp) (.inr htest) bindings b hbindings hb
      · refine ih (fun before q after heq hbefore hsel => ?_) hrest cascade rfl
        exact harm (p :: before) q after (by simp [heq]) (List.forall_mem_cons.2 ⟨hfails, hbefore⟩)
          hsel

/-- A match. -/
theorem Replays.cases (h : Replay Δ env v hasThis Γ₀ limits frame x old ρ h') {i : Info}
    {e : Source.Expr} {arms : List (Pattern × Source.Expr)} {dt : Path} {ts : List Typ}
    {d : Datatype} (hd : env.context.datatype dt = .ok d) (hvalue : e.typ = .datatype dt ts)
    (hpatterns : ∀ p ∈ arms, ∃ ctor, d.ctor p.1.ctor = .ok ctor ∧
      List.Forall₂ (fun b f => f.2.Fits b.2) p.1.binders ctor.fields)
    (hnames : ∀ p ∈ arms, ∀ b ∈ p.1.binders, (Discipline.beside env v Γ₀).binder b.1)
    (he : WellTyped env.context (.beside env v Γ₀) hasThis Γ e)
    (ihe : Replays Δ env v hasThis Γ₀ limits x old ρ h' Γ e)
    (ihs : ∀ p ∈ arms, Replays Δ env v hasThis Γ₀ limits x old ρ h' (Γ.bind p.1.binders) p.2) :
    Replays Δ env v hasThis Γ₀ limits x old ρ h' Γ (.cases i e arms) := by
  intro σ hσ ht c hc
  have hS := h.checkable.signed
  have hdt : (matchedDatatype e.typ).Returns env dt := returns_matchedDatatype.2 ⟨ts, hvalue⟩
  obtain ⟨s, hs, dt', hdt', d', hd', harms⟩ := returns_lowerExpr_cases.1 hc
  obtain rfl := hdt.unique hdt'
  obtain rfl := Except.ok.inj (hd.symm.trans hd')
  obtain ⟨s', hs', hsorted⟩ := lowerExpr_sorted hS he fun _ hx hr => hx.1 hr
  obtain rfl := hs.unique hs'
  have hsame := ihe σ hσ (ht.operand (List.mem_singleton_self _)) s hs
  refine unchanged_lowerArms hsame (fun before p after heq hbefore hsel bindings b hbindings hb
    => ?_) harms c rfl
  have hmem : p ∈ arms := heq ▸ List.mem_append_right _ (.head _)
  -- The last case is selected for a constructor too, since each of them has a case.
  have htest : Holds old σ (.app (Naming.isCtor dt p.1.ctor) [s]) := by
    rcases hsel with rfl | htest
    · obtain ⟨k, hk, hktest⟩ := ht.live dt d s hdt hd hs
      obtain ⟨q, hq⟩ := ht.1.exists_arm hdt hd hs hk hktest
      have hname : q.1.ctor = k.name := by simpa using List.find?_some hq
      rw [← hname] at hktest
      have hqmem := List.mem_of_find?_eq_some hq
      rw [heq, List.mem_append, List.mem_singleton] at hqmem
      rcases hqmem with hqmem | rfl
      · exact absurd hktest (hbefore q hqmem)
      · exact hktest
    · exact htest
  obtain ⟨ctor, hctor, hfit⟩ := hpatterns p hmem
  obtain ⟨hcmem, hcname⟩ := Datatype.mem_of_ctor hctor
  have hfind : arms.find? (·.1.ctor == ctor.name) = some p := by
    rw [heq, List.find?_append, List.find?_eq_none.2 fun q hq => ?_]
    · simp [hcname]
    · intro hqname
      have hqname : q.1.ctor = p.1.ctor := by simpa [hcname] using hqname
      exact hbefore q hq (hqname ▸ htest)
  have hpart := ht.part (.arm hdt hd hs hcmem hfind (hcname ▸ htest) hbindings)
  obtain ⟨bs, hbs, hsorts⟩ := caseBindings_sorted (a := s) hS hd hctor hfit
  obtain rfl := hbindings.unique hbs
  refine h.unchanged_lets hσ (hnames p hmem)
    (fun G hG => hsorts G ((hsorted G hG).trans (by rw [hvalue]; rfl))) (fun q hq => ?_)
    fun τ hτ hbelow => (ihs p hmem τ hbelow (hτ ▸ hpart) b hb).convert
  simp only [caseBindings, ExprM.returns_bind, ExprM.returns_pure] at hbindings
  obtain ⟨_, -, rfl⟩ := hbindings
  obtain ⟨f, -, rfl⟩ := List.mem_map.1 hq
  exact (Unchanged.app₁ hsame).convert

/-! ## Expressions -/

/-- A well-typed expression has the same value in both heaps wherever it is tame. -/
theorem lowerExpr_unchanged (h : Replay Δ env v hasThis Γ₀ limits frame x old ρ h')
    {e : Source.Expr} (he : WellTyped env.context (.beside env v Γ₀) hasThis Γ e) :
    Replays Δ env v hasThis Γ₀ limits x old ρ h' Γ e := by
  have hS := h.checkable.signed
  induction he with
  | bool =>
    intro σ hσ ht a ha
    obtain rfl := ExprM.returns_pure.1 ha
    exact .bool _
  | @int Γ i n =>
    intro σ hσ ht a ha
    obtain rfl := ExprM.returns_pure.1 ha
    unfold intConst
    split
    · exact .multi₂ (.nat _) (.nat _)
    · exact .nat _
  | null =>
    intro σ hσ ht a ha
    obtain rfl := ExprM.returns_pure.1 ha
    obtain ⟨G, hG, -⟩ := hσ.scope
    exact h.unchanged_var hG hG.null (by decide)
  | var htyp =>
    intro σ hσ ht a ha
    obtain rfl := ExprM.returns_pure.1 ha
    obtain ⟨G, hG, -⟩ := hσ.scope
    refine .var (Function.update_of_ne ?_ _ _)
    rintro rfl
    exact (hG.vars htyp).1 (.heap (by simp [h.heap, Expr.names]))
  | this hthis =>
    intro σ hσ ht a ha
    obtain rfl := ExprM.returns_pure.1 ha
    obtain ⟨G, hG, -⟩ := hσ.scope
    exact h.unchanged_var hG (hG.this hthis) (by decide)
  | field hfield hobj _ he ih => exact ih.field h hfield hobj he
  | index htyp ha hb iha ihb => exact iha.index h htyp ha hb ihb
  | slice _ _ _ he _ _ ih ihlo ihhi => exact ih.slice h he ihlo ihhi
  | update _ _ _ _ _ ihe ihk ihv =>
    intro σ hσ ht a ha
    simp only [lowerExpr, ExprM.returns_bind] at ha
    obtain ⟨c, hc, k, hk, y, hy, ha⟩ := ha
    exact .lowerUpdate (ihe σ hσ (ht.operand (.head _)) c hc)
      (ihk σ hσ (ht.operand (.tail _ (.head _))) k hk)
      (ihv σ hσ (ht.operand (.tail _ (.tail _ (.head _)))) y hy) ha
  | arrayLength _ _ _ ih =>
    intro σ hσ ht a ha
    simp only [lowerExpr, ExprM.returns_bind, Heap.returns_arrayLength] at ha
    obtain ⟨c, hc, rfl⟩ := ha
    exact .app₁ (ih σ hσ (ht.operand (.head _)) c hc)
  | @display Γ i kind es elem hkind _ _ ih =>
    intro σ hσ ht a ha
    simp only [lowerExpr, ExprM.returns_bind] at ha
    obtain ⟨_, -, ha⟩ := ha
    obtain ⟨G, hG, -⟩ := hσ.scope
    refine unchanged_lowerElements (fun e he => ih e he σ hσ (ht.operand he))
      (fun ha hb => .displayOps kind ha hb) ?_ ha
    cases kind with
    | set => exact h.unchanged_var hG hG.setEmpty (by decide)
    | multiset => exact h.unchanged_var hG hG.multisetEmpty (by decide)
    | seq => exact h.unchanged_var hG hG.seqEmpty (by decide)
  | @mapDisplay Γ i kvs _ _ _ _ _ _ ihk ihv =>
    intro σ hσ ht a ha
    simp only [lowerExpr, ExprM.returns_bind] at ha
    obtain ⟨_, -, ha⟩ := ha
    obtain ⟨G, hG, -⟩ := hσ.scope
    refine unchanged_lowerEntries (fun p hp e he => ?_) (h.unchanged_var hG hG.mapEmpty (by decide)) ha
    have hoperand : e ∈ (Source.Expr.mapDisplay i kvs).operands :=
      List.mem_flatMap.2 ⟨p, hp, he⟩
    simp only [List.mem_cons, List.not_mem_nil, or_false] at he
    rcases he with rfl | rfl
    · exact ihk p hp σ hσ (ht.operand hoperand)
    · exact ihv p hp σ hσ (ht.operand hoperand)
  | ctor _ _ _ _ _ ih =>
    intro σ hσ ht a ha
    simp only [lowerExpr, ExprM.returns_bind, ExprM.returns_pure] at ha
    obtain ⟨_, -, _, -, as, has, rfl⟩ := ha
    exact .app (unchanged_lowerArgs (fun e he => ih e he σ hσ (ht.operand he)) has)
  | destruct _ _ _ _ _ _ ih =>
    intro σ hσ ht a ha
    simp only [lowerExpr, ExprM.returns_bind, ExprM.returns_pure] at ha
    obtain ⟨_, -, _, -, _, -, c, hc, rfl⟩ := ha
    exact (Unchanged.app₁ (ih σ hσ (ht.operand (.head _)) c hc)).convert
  | isCtor _ _ _ _ _ ih =>
    intro σ hσ ht a ha
    simp only [lowerExpr, ExprM.returns_bind, ExprM.returns_pure] at ha
    obtain ⟨c, hc, rfl⟩ := ha
    exact .app₁ (ih σ hσ (ht.operand (.head _)) c hc)
  | old _ _ ih =>
    intro σ hσ ht a ha
    -- The old heap is the current one.
    have hold : v.old = v :=
      congrArg (fun heap => ({ v with heap } : View)) (h.oldHeap.trans h.heap.symm)
    have hpart := ht.part .old
    rw [hold] at hpart
    rw [lowerExpr, hold] at ha
    exact ih σ hσ hpart a ha
  | fresh =>
    intro σ hσ ht a ha
    exact absurd rfl (ht.steady.1 _ _)
  | @unary Γ i op e _ _ ih =>
    intro σ hσ ht a ha
    have hoperand := ih σ hσ (ht.operand (.head _))
    cases op with
    | not =>
      simp only [lowerExpr, ExprM.returns_bind, ExprM.returns_pure] at ha
      obtain ⟨c, hc, rfl⟩ := ha
      exact (hoperand c hc).neg
    | neg =>
      simp only [lowerExpr, ExprM.returns_bind, ExprM.returns_pure] at ha
      obtain ⟨c, hc, rfl⟩ := ha
      exact .multi₂ (.nat 0) (hoperand c hc)
    | card =>
      simp only [lowerExpr, ExprM.returns_bind, ExprM.returns_pure] at ha
      obtain ⟨size, hsize, c, hc, rfl⟩ := ha
      exact .lowerCard (hoperand c hc) hsize
  | @binary Γ i op a b _ _ _ iha ihb =>
    intro σ hσ ht c hc
    simp only [lowerExpr, ExprM.returns_bind] at hc
    obtain ⟨y, hy, z, hz, hc⟩ := hc
    have hfirst : a ∈ (Source.Expr.binary i op a b).operands := by
      by_cases hop : (guardOfFirst? op).isSome <;> simp [Expr.operands, hop]
    have hy' := iha σ hσ (ht.operand hfirst) y hy
    have hz' : ∀ {guard}, guardOfFirst? op = some guard → Holds old σ (guard y) →
        Unchanged old σ (Function.update σ x h') z := fun hop hguard =>
      ihb σ hσ (ht.part (.second hop hy hguard)) z hz
    cases op with
    | and =>
      obtain rfl := ExprM.returns_pure.1 hc
      exact .conj (.cons hy' fun hholds => .cons (hz' rfl hholds) fun _ => .nil)
    | or =>
      obtain rfl := ExprM.returns_pure.1 hc
      exact .disj (.cons hy' fun hfails => .cons (hz' rfl ((holds_neg _).2 hfails)) fun _ => .nil)
    | implies =>
      obtain rfl := ExprM.returns_pure.1 hc
      exact .imp hy' fun hholds => hz' rfl hholds
    | _ => exact .lowerBinary hy' (ihb σ hσ (ht.operand (.tail _ (.head _))) z hz) hc
  | quant _ hbs _ _ _ _ _ ihr ihe _ => exact ihe.quant h hbs ihr
  | setComp hnodup hbs htyp hbool _ helem hr ht ihr iht =>
    exact .setComp h hnodup hbs htyp hbool helem hr ht ihr iht
  | mapComp hb htyp hbool hvalue hr ht ihr iht =>
    exact .mapComp h hb htyp hbool hvalue hr ht ihr iht
  | @letIn Γ i bs e hnames _ hbs _ ihbs ihe =>
    intro σ hσ ht a ha
    simp only [lowerExpr, ExprM.returns_bind, ExprM.returns_pure] at ha
    obtain ⟨as, has, b, hb, rfl⟩ := ha
    obtain ⟨as', has', hsorted⟩ := lowerBindings_sorted fun p hp =>
      lowerExpr_sorted hS (hbs p hp) fun _ hx hr => hx.1 hr
    obtain rfl := has.unique has'
    refine h.unchanged_lets hσ (fun c hc => ?_) hsorted (unchanged_lowerBindings (fun p hp => ?_) has)
      fun τ hτ hbelow => ihe τ hbelow (hτ ▸ ht.part (.letBody has)) b hb
    · obtain ⟨p, hp, rfl⟩ := List.mem_map.1 hc
      exact hnames p hp
    · exact ihbs p hp σ hσ (ht.operand (List.mem_map.2 ⟨p, hp, rfl⟩))
  | ite _ _ _ _ _ ihe iha ihb =>
    intro σ hσ ht a ha
    simp only [lowerExpr, ExprM.returns_bind, ExprM.returns_pure] at ha
    obtain ⟨y, hy, z, hz, c, hc, rfl⟩ := ha
    exact .cond (ihe σ hσ (ht.operand (.head _)) c hc)
      (fun hholds => (iha σ hσ (ht.part (.thn hc hholds)) y hy).convert)
      fun hfails => (ihb σ hσ (ht.part (.els hc hfails)) z hz).convert
  | cases hd hvalue _ hpatterns hnames _ he _ ihe ihs =>
    exact ihe.cases h hd hvalue hpatterns hnames he ihs
  | call hf hthis hrecv hargs _ hr hes ihr ihes =>
    exact .call h hf hthis hrecv hargs hr hes ihr ihes

end ContractLowering
