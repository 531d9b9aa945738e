import ContractLowering.Proofs.Lowering.Writing

/-!
# Clauses that are established hold

Where a goal is asserted part by part, the parts that are asserted and those that are assumed
together imply it (`split_covers`), without a look at why the first ones imply the second ones. So
after the code that establishes clauses every one of them holds (`establish_holds`). Conditionals
have to have branches of their own type, since a goal is split through its branches.
-/

namespace ContractLowering

open IL Source

theorem Boxing.convert_self (t : Typ) (e : IL.Expr) : convert t t e = e := by
  cases h : t.isBoxed <;> simp [convert, unboxTo, boxTo, h]

/-- The branches of a conditional have its type. -/
def Source.Expr.Even : Source.Expr → Prop
  | .ite i _ a b => a.typ = i.typ ∧ b.typ = i.typ
  | _ => True

section

variable {M : Model} {old : M.Valuation} {v : View} {c : Context} {s₀ s s' : Progress}
  {parts : List GoalPart}

/-- The parts of a goal imply it, wherever they all hold. -/
def Covers (old : M.Valuation) (v : View) (c : Context) (s₀ : Progress) (goal : Source.Expr)
    (parts : List GoalPart) : Prop :=
  ∃ g, (lowerExpr v goal).Returns (s₀.env c) g ∧
    ∀ ρ : M.Valuation, (∀ p ∈ parts, Holds old ρ p.expr) → Holds old ρ g

/-- Parts under a condition or binder. -/
theorem holds_of_wrapAll {ρ : M.Valuation} {S : M.Valuation → Prop} {wrap : IL.Expr → IL.Expr}
    {g : IL.Expr} (hwrap : ∀ e, Holds old ρ (wrap e) → ∀ σ, S σ → Holds old σ e)
    (hg : ∀ σ, (∀ p ∈ parts, Holds old σ p.expr) → Holds old σ g)
    (h : ∀ p ∈ GoalPart.wrapAll wrap parts, Holds old ρ p.expr) : ∀ σ, S σ → Holds old σ g :=
  fun σ hσ => hg σ fun _ hp => hwrap _ (h _ (List.mem_map_of_mem hp)) σ hσ

/-- A goal that is its own only part, up to parts that are not looked at. -/
theorem covers_of_mem {goal : Source.Expr} {g : IL.Expr} {p : GoalPart}
    (hg : (lowerExpr v goal).Returns (s₀.env c) g) (hp : p ∈ parts) (heq : p.expr = g) :
    Covers old v c s₀ goal parts :=
  ⟨g, hg, fun _ h => heq ▸ h p hp⟩

theorem covers_both {goal : Source.Expr} (hs : s₀.Later c s) {span : Span}
    (h : (do return [⟨.both, ← lowerExpr v goal, span⟩] : DeclM (List GoalPart)).Runs c s
      parts s') : Covers old v c s₀ goal parts := by
  simp only [DeclM.runs_bind, DeclM.runs_pure] at h
  obtain ⟨g, s₁, hg, rfl, rfl⟩ := h
  exact covers_of_mem (hg.lower hs (lowerExpr_stable goal v)).1 List.mem_cons_self rfl

theorem covers_call (height fuel : Nat) (induct : Bool) {i : Info} {f : Path}
    {recv : Option Source.Expr} {args : List Source.Expr} (hs : s₀.Later c s)
    (h : (splitGoal v height fuel induct (.call i f recv args)).Runs c s parts s') :
    Covers old v c s₀ (.call i f recv args) parts := by
  rcases height with _ | lower
  · rw [splitGoal] at h
    exact covers_both hs h
  rw [splitGoal] at h
  simp only [DeclM.runs_bind] at h
  obtain ⟨callee, s₁, hf, call, s₂, hcall, o, s₃, ho, h⟩ := h
  obtain ⟨-, h₁⟩ := DeclM.Runs.lower (x := ExprM.function f) hs hf (.function f)
  obtain ⟨hcall, h₂⟩ := DeclM.Runs.lower (x := lowerExpr v _) h₁ hcall (lowerExpr_stable _ v)
  cases o with
  | none =>
    obtain ⟨rfl, -⟩ := DeclM.runs_pure.1 h
    exact covers_of_mem hcall List.mem_cons_self rfl
  | some body =>
    simp only [DeclM.runs_bind] at h
    obtain ⟨_, _, -, _, _, -, _, _, -, h⟩ := h
    split at h
    · simp only [DeclM.runs_bind, DeclM.runs_pure] at h
      obtain ⟨_, _, -, _, _, -, rfl, -⟩ := h
      exact covers_of_mem hcall List.mem_cons_self rfl
    · cases fuel with
      | zero | succ =>
        simp only [DeclM.runs_bind, DeclM.runs_pure] at h
        obtain ⟨_, _, -, rfl, -⟩ := h
        exact covers_of_mem hcall List.mem_cons_self rfl

theorem covers_all (height fuel : Nat) (induct : Bool) {i : Info} {bs : List Source.Binder}
    {r : Option Source.Expr} {b : Source.Expr} {ts : List (List Source.Expr)} {attr : Induction}
    (hb : ∀ ⦃s s' : Progress⦄ ⦃parts⦄, s₀.Later c s →
      (splitGoal v height fuel induct b).Runs c s parts s' → Covers old v c s₀ b parts)
    (hs : s₀.Later c s)
    (h : (splitGoal v height fuel induct (.quant i .all bs r b ts attr)).Runs c s parts s') :
    Covers old v c s₀ (.quant i .all bs r b ts attr) parts := by
  rw [splitGoal_all] at h
  simp only [DeclM.runs_bind, DeclM.runs_context] at h
  obtain ⟨w, s₁, hw, u, s₂, hu, d, s₃, ⟨-, rfl⟩, given, s₄, ht, vars, s₅, hvars, h⟩ := h
  obtain ⟨hw, h₁⟩ := hw.lower hs (bindersWhere_stable v.heap bs)
  obtain ⟨hu, h₂⟩ := hu.lower h₁ (lowerExpr?_stable v _)
  obtain ⟨ht, h₃⟩ := ht.lower h₂ (lowerTriggers_stable v _)
  obtain ⟨-, h₄⟩ := hvars.lower h₃ (selectedVars_stable induct attr bs _)
  split at h
  · simp only [DeclM.runs_bind, DeclM.runs_pure] at h
    obtain ⟨ps, s₆, hps, rfl, -⟩ := h
    obtain ⟨y, hy, hcover⟩ := hb h₄ hps
    obtain ⟨g, hg, hholds⟩ := returns_all old i attr hw hu ht hy
    refine ⟨g, hg, fun ρ hparts => (hholds ρ).2 fun σ hσ hwhere hrange => ?_⟩
    refine holds_of_wrapAll (S := fun σ => Model.Assigns (sortBinders bs) ρ σ ∧ Holds old σ w ∧
      ∀ a ∈ u, Holds old σ a) (fun e he σ hσ => ?_) hcover hparts σ ⟨hσ, hwhere, hrange⟩
    refine (holds_imp _ _).1 ((holds_all _ _ _).1 he σ hσ.1) ((holds_conj _).2 fun a ha => ?_)
    rcases List.mem_cons.1 ha with rfl | ha
    · exact hσ.2.1
    · exact hσ.2.2 a (Option.mem_toList.1 ha)
  · simp only [DeclM.runs_bind, DeclM.runs_pure] at h
    obtain ⟨obs, s₆, hobs, g, s₇, hg, rfl, -⟩ := h
    have h₅ := h₄.trans (runs_quantifierObligations hobs).1
    exact covers_of_mem (hg.lower h₅ (lowerExpr_stable _ v)).1
      (List.mem_append_right _ List.mem_cons_self) rfl

/-- Splitting covers a goal: opened calls and goals proved by induction are among their parts. -/
theorem splitGoal_covers (height fuel : Nat) (induct : Bool) {goal : Source.Expr}
    (hgoal : ∀ e ∈ goal.subexprs, e.Even) (hs : s₀.Later c s)
    (h : (splitGoal v height fuel induct goal).Runs c s parts s') :
    Covers old v c s₀ goal parts := by
  -- the induction is on the goal alone, since an opened call is a part of itself
  induction goal using Source.Expr.recData generalizing s s' parts with
  | binary i op a b iha ihb =>
    simp only [Source.Expr.subexprs, List.forall_mem_cons, List.forall_mem_append] at hgoal
    cases op with
    | and =>
      rw [splitGoal] at h
      simp only [DeclM.runs_bind, DeclM.runs_pure] at h
      obtain ⟨ps, s₁, ha, qs, s₂, hb, rfl, -⟩ := h
      obtain ⟨x, hx, hps⟩ := iha hgoal.2.1 hs ha
      obtain ⟨y, hy, hqs⟩ := ihb hgoal.2.2 (hs.trans (splitGoal_later _ _ _ _ ha)) hb
      refine ⟨.conj [x, y], ?_, fun ρ hparts => ?_⟩
      · simp only [lowerExpr, ExprM.returns_bind]
        exact ⟨x, hx, y, hy, by simp [lowerBinary]⟩
      · obtain ⟨hp, hq⟩ := List.forall_mem_append.1 hparts
        simpa using ⟨hps ρ hp, hqs ρ hq⟩
    | implies =>
      rw [splitGoal] at h
      simp only [DeclM.runs_bind, DeclM.runs_pure] at h
      obtain ⟨x, s₁, hx, ps, s₂, hb, rfl, -⟩ := h
      obtain ⟨hx, h₁⟩ := DeclM.Runs.lower hs hx (lowerExpr_stable a v)
      obtain ⟨y, hy, hps⟩ := ihb hgoal.2.2 h₁ hb
      refine ⟨.imp x y, ?_, fun ρ hparts => (holds_imp _ _).2 fun hholds => ?_⟩
      · simp only [lowerExpr, ExprM.returns_bind]
        exact ⟨x, hx, y, hy, by simp [lowerBinary]⟩
      · exact holds_of_wrapAll (S := fun σ => σ = ρ) (fun e he σ hσ => hσ ▸ (holds_imp _ _).1 he hholds)
          hps hparts ρ rfl
    | or =>
      rw [splitGoal] at h
      simp only [DeclM.runs_bind, DeclM.runs_pure] at h
      obtain ⟨x, s₁, hx, ps, s₂, hb, rfl, -⟩ := h
      obtain ⟨hx, h₁⟩ := DeclM.Runs.lower hs hx (lowerExpr_stable a v)
      obtain ⟨y, hy, hps⟩ := ihb hgoal.2.2 h₁ hb
      refine ⟨.disj [x, y], ?_, fun ρ hparts => (holds_disj _).2 ?_⟩
      · simp only [lowerExpr, ExprM.returns_bind]
        exact ⟨x, hx, y, hy, by simp [lowerBinary]⟩
      · by_cases hholds : Holds old ρ x
        · exact ⟨x, by simp, hholds⟩
        · exact ⟨y, by simp, holds_of_wrapAll (S := fun σ => σ = ρ)
            (fun e he σ hσ => hσ ▸ (holds_imp _ _).1 he ((holds_neg x).2 hholds)) hps hparts ρ rfl⟩
    | _ =>
      rw [splitGoal] at h
      · exact covers_both hs h
      all_goals simp
  | ite i t a b iht iha ihb =>
    simp only [Source.Expr.subexprs, List.forall_mem_cons, List.forall_mem_append] at hgoal
    obtain ⟨⟨hta, htb⟩, ⟨-, ha⟩, hb⟩ := hgoal
    rw [splitGoal] at h
    simp only [DeclM.runs_bind, DeclM.runs_pure] at h
    obtain ⟨x, s₁, hx, ps, s₂, hrun, qs, s₃, hrun', rfl, -⟩ := h
    obtain ⟨hx, h₁⟩ := DeclM.Runs.lower hs hx (lowerExpr_stable t v)
    obtain ⟨y, hy, hps⟩ := iha ha h₁ hrun
    obtain ⟨z, hz, hqs⟩ := ihb hb (h₁.trans (splitGoal_later _ _ _ _ hrun)) hrun'
    refine ⟨.cond x y z, ?_, fun ρ hparts => (holds_cond _ _ _).2 ?_⟩
    · simp only [lowerExpr, ExprM.returns_bind, ExprM.returns_pure]
      exact ⟨y, hy, z, hz, x, hx, by rw [hta, htb, Boxing.convert_self, Boxing.convert_self]⟩
    · obtain ⟨hp, hq⟩ := List.forall_mem_append.1 hparts
      exact ⟨fun hholds => holds_of_wrapAll (S := fun σ => σ = ρ)
          (fun e he σ hσ => hσ ▸ (holds_imp _ _).1 he hholds) hps hp ρ rfl,
        fun hholds => holds_of_wrapAll (S := fun σ => σ = ρ)
          (fun e he σ hσ => hσ ▸ (holds_imp _ _).1 he ((holds_neg x).2 hholds)) hqs hq ρ rfl⟩
  | letIn i bs b ihbs ihb =>
    simp only [Source.Expr.subexprs, List.forall_mem_cons, List.forall_mem_append] at hgoal
    rw [splitGoal] at h
    simp only [DeclM.runs_bind, DeclM.runs_pure] at h
    obtain ⟨vs, s₁, hvs, ps, s₂, hb, rfl, -⟩ := h
    obtain ⟨hvs, h₁⟩ := DeclM.Runs.lower hs hvs
      (lowerBindings_stable v _)
    obtain ⟨y, hy, hps⟩ := ihb hgoal.2.2 h₁ hb
    refine ⟨.lets vs y, ?_, fun ρ hparts => (holds_lets _ _).2 ?_⟩
    · simp only [lowerExpr, ExprM.returns_bind, ExprM.returns_pure]
      exact ⟨vs, hvs, y, hy, rfl⟩
    · exact holds_of_wrapAll (S := fun σ => σ = Model.bind (vs.map fun x => (x.1, x.2.eval old ρ)) ρ)
        (fun e he σ hσ => hσ ▸ (holds_lets _ _).1 he) hps hparts _ rfl
  | quant i q bs r b ts attr ihr ihb iht =>
    simp only [Source.Expr.subexprs, List.forall_mem_cons, List.forall_mem_append] at hgoal
    cases q with
    | all => exact covers_all height fuel induct (fun _ _ _ hs h => ihb hgoal.2.1.2 hs h) hs h
    | ex =>
      rw [splitGoal] at h
      · exact covers_both hs h
      all_goals simp
  | call i f recv args ihr ihargs => exact covers_call height fuel induct hs h
  | _ =>
    rw [splitGoal] at h
    · exact covers_both hs h
    all_goals simp

/-- A condition that a statement asserts or assumes holds. -/
def IL.Stmt.Passes (old ρ : M.Valuation) : IL.Stmt → Prop
  | .assume e | .assert _ e => Holds old ρ e
  | _ => True

/-- After a goal is asserted part by part it holds. -/
theorem assertGoal_holds {b : Body} {e : Source.Expr} (he : ∀ d ∈ e.subexprs, d.Even)
    {inherited : Bool} {note : String} {ss : List IL.Stmt}
    (h : (b.assertGoal v e inherited note).Emits c s () ss s') {ρ : M.Valuation}
    (hss : ∀ t ∈ ss, t.Passes old ρ) :
    ∃ g, (lowerExpr v e).Returns (s.env c) g ∧ Holds old ρ g := by
  simp only [Body.assertGoal, BodyM.emits_decl_bind, DeclM.gives_context, BodyM.emits_add] at h
  obtain ⟨_, s₁, ⟨rfl, rfl⟩, parts, s₂, hparts, rfl, -⟩ := h
  have covers : Covers old v _ _ e parts :=
    splitGoal_covers _ _ true he (.refl _ _) (runs_split.1 hparts)
  obtain ⟨g, hg, hcover⟩ := covers
  refine ⟨g, hg, hcover ρ fun p hp => ?_⟩
  obtain ⟨hchecked, hfree⟩ := List.forall_mem_append.1 hss
  by_cases hkind : p.kind.isChecked = true
  · have := hchecked _ (List.mem_map_of_mem (List.mem_filter.2 ⟨hp, hkind⟩))
    split at this <;> exact this
  · exact hfree _ (List.mem_map_of_mem (List.mem_filter.2 ⟨hp, by simpa using hkind⟩))

/-- After clauses are established each of them holds. -/
theorem establish_holds {b : Body} {note : String} {specs : List Spec} {ss : List IL.Stmt}
    (h : (b.establish v note specs).Emits c s () ss s') {ρ : M.Valuation}
    (hss : ∀ t ∈ ss, t.Passes old ρ) {k : Spec} (hk : k ∈ specs)
    (he : ∀ d ∈ k.expr.subexprs, d.Even) :
    ∃ s₁ g, s.Extends s₁ ∧ (lowerExpr v k.expr).Returns (s₁.env c) g ∧ Holds old ρ g := by
  induction specs generalizing s ss with
  | nil => cases hk
  | cons first specs ih =>
    obtain ⟨_, s₁, ts, us, hfirst, hrest, rfl⟩ := BodyM.emits_bind.1 h
    obtain ⟨hts, hus⟩ := List.forall_mem_append.1 hss
    obtain ⟨_, s₂, ds, gs, hdefine, hgoal, rfl⟩ := BodyM.emits_bind.1 hfirst
    obtain ⟨hs₂, -⟩ := Writing.define (N := fun _ => True) v first.expr trivial hdefine
    rcases List.mem_cons.1 hk with rfl | hk
    · split at hgoal
      · simp only [BodyM.emits_expr_bind, BodyM.assume, BodyM.emits_add] at hgoal
        obtain ⟨g, hg, rfl, -⟩ := hgoal
        exact ⟨s₂, g, hs₂, hg, hts (.assume g) (by simp)⟩
      · obtain ⟨g, hg, hholds⟩ := assertGoal_holds he hgoal fun t ht => hts t (by simp [ht])
        exact ⟨s₂, g, hs₂, hg, hholds⟩
    · have hs₁ : s₂.Extends s₁ := by
        split at hgoal
        · exact (((BodyM.Lays.ofExpr _).andThen fun _ => Writing.assume _ :
            BodyM.Lays _ c (.writing fun _ => True) _) trivial hgoal).1
        · exact (Writing.assertGoal (N := fun _ => True) b v _ _ _ trivial hgoal).1
      obtain ⟨s₃, g, hs₃, hg, hholds⟩ := ih hrest hus hk
      exact ⟨s₃, g, (hs₂.trans hs₁).trans hs₃, hg, hholds⟩

end

end ContractLowering
