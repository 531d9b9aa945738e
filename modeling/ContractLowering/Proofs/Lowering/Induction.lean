import ContractLowering.Proofs.Lowering.CopyValue
import ContractLowering.Proofs.Lowering.Rank

/-!
# Proving a quantifier by induction

`quantifierObligations_sound`: if all obligations of a quantifier hold, then so does the
quantifier. The argument is induction on the ranks of the induction variables. At given values of
the bound variables one of the cases applies, and the hypothesis of its obligation holds: for
values of the copies that are smaller it is the goal at those values.
-/

namespace ContractLowering

open IL Source

/-! ## The substitution of copies -/

namespace Induction

/-- Copies of bound variables, of which later ones hide earlier ones like the binders do. -/
theorem isCopies_foldl {k : Copies} {span : Span} {bs : List Source.Binder}
    (hbs : ∀ b ∈ bs, b.1 ∈ k.vars) {Γ : Typing} {acc : List (String × Source.Expr)}
    (hacc : Subst.IsCopies k Γ ⟨none, acc⟩) :
    Subst.IsCopies k (Γ.bind bs) ⟨none, (bs.map fun b =>
      (b.1, Source.Expr.mkVar span (Naming.renamed b.1 k.number) b.2)).foldl Subst.bind acc⟩ := by
  induction bs generalizing Γ acc with
  | nil => exact hacc
  | cons b bs ih =>
    refine ih (fun c hc => hbs c (by simp [hc])) ⟨rfl, fun p hp => ?_⟩
    simp only [Subst.bind, List.mem_cons, List.mem_filter, bne_iff_ne] at hp
    rcases hp with rfl | ⟨hp, hne⟩
    · exact ⟨hbs b (by simp), span, b.2, by simp, rfl⟩
    · have hsame : Function.update Γ b.1 (some b.2) p.1 = Γ p.1 := Function.update_of_ne hne _ _
      obtain ⟨hvar, span, t, ht, he⟩ := hacc.entry p hp
      exact ⟨hvar, span, t, hsame.trans ht, he⟩

theorem isCopies_toCopies (span : Span) (n : Nat) (bs : List Source.Binder) (Γ : Typing) :
    (toCopies span n bs).IsCopies ⟨bs.map (·.1), n⟩ (Γ.bind bs) :=
  isCopies_foldl (fun _ hb => List.mem_map_of_mem hb) ⟨rfl, by simp⟩

theorem lookup_foldl_bind (x : String) (l acc : List (String × Source.Expr)) :
    ((l.foldl Subst.bind acc).lookup x).isSome ↔ x ∈ l.map (·.1) ∨ (acc.lookup x).isSome := by
  induction l generalizing acc with
  | nil => simp
  | cons p l ih =>
    have hstep : ((Subst.bind acc p).lookup x).isSome ↔ x = p.1 ∨ (acc.lookup x).isSome := by
      rw [Subst.bind, List.lookup_cons]
      by_cases hx : x = p.1
      · simp [hx]
      · rw [beq_eq_false_iff_ne.2 hx]
        simp [Subst.lookup_filter fun y => y != p.1, hx]
    rw [List.foldl_cons, ih, hstep, List.map_cons, List.mem_cons]
    tauto

theorem copyName_toCopies (span : Span) (n : Nat) (bs : List Source.Binder) (x : String) :
    (toCopies span n bs).copyName ⟨bs.map (·.1), n⟩ x = Copies.rename ⟨bs.map (·.1), n⟩ x := by
  have hlookup : ((toCopies span n bs).map.lookup x).isSome ↔ x ∈ bs.map (·.1) := by
    exact (lookup_foldl_bind x _ []).trans (by simp [List.map_map, Function.comp_def])
  exact if_congr hlookup rfl rfl

end Induction

/-! ## What is computed -/

/-- The goal of a quantifier with variables replaced. -/
def quantifierGoal (v : View) (range : Option Source.Expr) (body : Source.Expr) (s : Subst) :
    ExprM IL.Expr := do
  let b ← lowerExpr v (body.subst s)
  match range with
  | none => return b
  | some r => return .imp (← lowerExpr v (r.subst s)) b

/-- The hypothesis that a goal holds at smaller values, in terms of its parts. -/
def hypothesisFormula (n : Nat) (binders vars : List Source.Binder) (wheres goal : IL.Expr) :
    IL.Expr :=
  .all (sortBinders (Induction.renamed n binders)) [] (.imp (.conj [wheres,
    Termination.decreases false (Induction.varValues vars)
      (Induction.varValues (Induction.renamed n vars))]) goal)

variable {v : View} {c : Context} {s s' : Progress}

theorem quantifierGoal_stable (range : Option Source.Expr) (body : Source.Expr) (t : Subst) :
    (quantifierGoal v range body t).Stable := by
  refine (lowerExpr_stable _ v).bind fun b => ?_
  cases range with
  | none => exact .pure _
  | some r => exact (lowerExpr_stable _ v).bind fun _ => .pure _

theorem caseSplit_stable (vars : List Source.Binder) : (Induction.caseSplit vars).Stable :=
  Induction.caseSplit_has (T := .stable) vars

theorem runs_hypothesis {span : Span} {binders vars : List Source.Binder}
    {goal : Subst → ExprM IL.Expr} (hgoal : ∀ t, (goal t).Stable) {ih : IL.Expr}
    (h : (Induction.hypothesis v span binders vars goal).Runs c s ih s') :
    s.Later c s' ∧ ∃ n w g, s.decl.counter < n ∧
      (bindersWhere v.heap (Induction.renamed n binders)).Returns (s.env c) w ∧
      (goal (Induction.toCopies span n binders)).Returns (s.env c) g ∧
      ih = hypothesisFormula n binders vars w g := by
  simp only [Induction.hypothesis, DeclM.runs_bind, DeclM.runs_pure] at h
  obtain ⟨n, s₁, hn, w, s₂, hw, g, s₃, hg, rfl, rfl⟩ := h
  obtain ⟨hlt, h₁⟩ := hn.freshId
  obtain ⟨hw, h₂⟩ := hw.ofExpr (bindersWhere_stable _ _)
  obtain ⟨hg, h₃⟩ := hg.ofExpr (hgoal _)
  refine ⟨(h₁.trans h₂).trans h₃, n, w, g, hlt, ?_, ?_, rfl⟩
  · exact ((bindersWhere_stable _ _).returns h₁.same).1 hw
  · exact ((hgoal _).returns (h₁.trans h₂).same).1 hg

theorem runs_quantifierObligations {span : Span} {binders vars : List Source.Binder}
    {range : Option Source.Expr} {body : Source.Expr} {obligations : List IL.Expr}
    (h : (quantifierObligations v span binders vars range body).Runs c s obligations s') :
    s.Later c s' ∧ ∃ n w' g' g w cases, s.decl.counter < n ∧
      (bindersWhere v.heap (Induction.renamed n binders)).Returns (s.env c) w' ∧
      (quantifierGoal v range body (Induction.toCopies span n binders)).Returns (s.env c) g' ∧
      (quantifierGoal v range body {}).Returns (s.env c) g ∧
      (bindersWhere v.heap binders).Returns (s.env c) w ∧
      (Induction.caseSplit vars).Returns (s.env c) cases ∧
      obligations = cases.map fun case => .all (sortBinders binders) []
        (.imp (.conj [w, case, hypothesisFormula n binders vars w' g']) g) := by
  replace h : (do
      let ih ← Induction.hypothesis v span binders vars (quantifierGoal v range body)
      let g ← DeclM.ofExpr (quantifierGoal v range body {})
      let wheres ← DeclM.ofExpr (bindersWhere v.heap binders)
      let cases ← DeclM.ofExpr (Induction.caseSplit vars)
      return cases.map fun c => IL.Expr.all (sortBinders binders) []
        (.imp (.conj [wheres, c, ih]) g) : DeclM (List IL.Expr)).Runs c s obligations s' := h
  simp only [DeclM.runs_bind, DeclM.runs_pure] at h
  obtain ⟨ih, s₁, hih, g, s₂, hg, w, s₃, hw, cases, s₄, hcases, rfl, rfl⟩ := h
  obtain ⟨h₁, n, w', g', hn, hw', hg', rfl⟩ := runs_hypothesis (quantifierGoal_stable _ _) hih
  obtain ⟨hg, h₂⟩ := hg.ofExpr (quantifierGoal_stable _ _ _)
  obtain ⟨hw, h₃⟩ := hw.ofExpr (bindersWhere_stable _ _)
  obtain ⟨hcases, h₄⟩ := hcases.ofExpr (caseSplit_stable _)
  have h₁₂ := h₁.trans h₂
  have h₁₃ := h₁₂.trans h₃
  refine ⟨h₁₃.trans h₄, n, w', g', g, w, cases, hn, hw', hg', ?_, ?_, ?_, rfl⟩
  · exact ((quantifierGoal_stable _ _ _).returns h₁.same).1 hg
  · exact ((bindersWhere_stable _ _).returns h₁₂.same).1 hw
  · exact ((caseSplit_stable _).returns h₁₃.same).1 hcases

/-! ## Values of the copies -/

namespace Copies

variable {k : Copies} {M : Model}

theorem name_inj {x y : String} (h : k.name x = k.name y) : x = y := Naming.renamed_inj h

/-- Binding copies gives them the values that binding the variables gives these. -/
theorem bind_name {xs : List String} {as : List M.Val} {σ ρ : M.Valuation} {x : String}
    (hx : x ∈ (xs.zip as).map (·.1)) :
    Model.bind ((xs.map k.name).zip as) σ (k.name x) = Model.bind (xs.zip as) ρ x := by
  induction xs generalizing as σ ρ with
  | nil => simp at hx
  | cons y xs ih =>
    cases as with
    | nil => simp at hx
    | cons a as =>
      simp only [List.map_cons, List.zip_cons_cons, Model.bind_cons]
      by_cases hrest : x ∈ (xs.zip as).map (·.1)
      · exact ih hrest
      · obtain rfl : x = y := by simpa [hrest] using hx
        have hcopy : k.name x ∉ ((xs.map k.name).zip as).map (·.1) := by
          rw [List.zip_map_left, List.map_map]
          intro h
          obtain ⟨p, hp, he⟩ := List.mem_map.1 h
          exact hrest (name_inj he ▸ List.mem_map_of_mem hp)
        rw [Model.bind_of_notMem hrest, Model.bind_of_notMem hcopy]
        simp

/-- Up to the values of copies, what variables stand for through their copies is what they stand
for when they are given the values of the copies. -/
theorem comp_rename_forget {as : List M.Val} {ρ σ τ : M.Valuation}
    (hplain : ∀ x ∈ k.vars, k.Plain x) (hlen : k.vars.length ≤ as.length)
    (hσ : ∀ x ∉ k.vars, σ x = ρ x) (hτ : τ = Model.bind ((k.vars.map k.name).zip as) σ) :
    (τ ∘ k.rename) ∘ k.forget = Model.bind (k.vars.zip as) ρ ∘ k.forget := by
  have hnames : (k.vars.zip as).map (·.1) = k.vars := List.map_fst_zip hlen
  have hcopies : ((k.vars.map k.name).zip as).map (·.1) = k.vars.map k.name :=
    List.map_fst_zip (by simpa using hlen)
  have hforget : ∀ y, ¬ k.IsCopy (k.forget y) := by
    intro y
    by_cases hy : k.IsCopy y
    · rw [forget, if_pos hy]
      rintro ⟨x, hx, he⟩
      exact hplain x hx _ (name_inj he).symm
    · rwa [forget_of_not hy]
  funext y
  show τ (k.rename (k.forget y)) = Model.bind (k.vars.zip as) ρ (k.forget y)
  have hz := hforget y
  generalize k.forget y = z at hz
  by_cases hvar : z ∈ k.vars
  · rw [rename_of_mem hvar, hτ]
    exact bind_name (by rwa [hnames])
  · have hcopy : z ∉ k.vars.map k.name := by
      intro h
      obtain ⟨x, hx, rfl⟩ := List.mem_map.1 h
      exact hz ⟨x, hx, rfl⟩
    rw [rename_of_notMem hvar, hτ, Model.bind_of_notMem (by rwa [hcopies]),
      Model.bind_of_notMem (by rwa [hnames]), hσ z hvar]

end Copies

/-! ## Soundness -/

/-- A name that is no copy with a number above `c`: none that is still to be made. -/
def Settled (c : Nat) (x : String) : Prop := ∀ n, c < n → ∀ y, x ≠ Naming.renamed y n

theorem Settled.mono {c d : Nat} {x : String} (h : Settled c x) (hcd : c ≤ d) : Settled d x :=
  fun n hn => h n (Nat.lt_of_le_of_lt hcd hn)

/-- Names of the source have no percent sign, so they are settled. -/
theorem settled_of_notMem {c : Nat} {x : String} (h : '%' ∉ x.toList) : Settled c x := by
  rintro n - y rfl
  simp [Naming.renamed] at h

/-- What makes induction on a quantifier sound, when numbers up to `c` have been given out. The
bound variables are distinct, neither they nor their copies are names that lowered code mentions
on its own account, and variables are typed like their binders. -/
structure Inducible (env : Env) (v : View) (c : Nat) (binders : List Source.Binder)
    (range : Option Source.Expr) (body : Source.Expr) : Prop where
  distinct : (binders.map (·.1)).Nodup
  settled : ∀ b ∈ binders, Settled c b.1
  binder : ∀ b ∈ binders, ¬ Reserved env v b.1
  copy : ∀ b ∈ binders, ∀ n, c < n → ¬ Reserved env v (Naming.renamed b.1 n)
  heap : ∀ x ∈ v.heap.names, Settled c x
  oldHeap : ∀ x ∈ v.oldHeap.names, Settled c x
  typed : ∀ e ∈ body :: range.toList,
    e.Scoped (Settled c) (PatternFits env.context) (Typing.bind binders fun _ => none)
  free : ∀ e ∈ body :: range.toList, ∀ x ∈ e.freeVars, Settled c x

section

variable {env : Env} {n : Nat} {binders vars : List Source.Binder} {range : Option Source.Expr}
  {body : Source.Expr} {M : Model} {old ρ σ τ : M.Valuation} {w g g' : IL.Expr}

theorem Inducible.apart (h : Inducible env v n binders range body) {m : Nat} (hm : n < m) :
    Copies.Apart ⟨binders.map (·.1), m⟩ env v where
  plain x hx := by
    obtain ⟨b, hb, rfl⟩ := List.mem_map.1 hx
    exact h.settled b hb m hm
  vars x hx := by
    obtain ⟨b, hb, rfl⟩ := List.mem_map.1 hx
    exact h.binder b hb
  copies x hx := by
    obtain ⟨b, hb, rfl⟩ := List.mem_map.1 hx
    exact h.copy b hb m hm
  heap x hx := h.heap x hx m hm
  oldHeap x hx := h.oldHeap x hx m hm

/-- The goal at the copies is the goal where variables stand for what their copies do. -/
theorem quantifierGoal_copies (h : Inducible env v n binders range body) {m : Nat} (hm : n < m)
    {span : Span} (hg : (quantifierGoal v range body {}).Returns env g)
    (hg' : (quantifierGoal v range body (Induction.toCopies span m binders)).Returns env g') :
    Holds old ρ g' ↔ Holds old (ρ ∘ Copies.rename ⟨binders.map (·.1), m⟩) g := by
  have heval : ∀ e ∈ body :: range.toList, ∀ {a a' : IL.Expr}, (lowerExpr v e).Returns env a →
      (lowerExpr v (e.subst (Induction.toCopies span m binders))).Returns env a' →
      (Holds old ρ a' ↔ Holds old (ρ ∘ Copies.rename ⟨binders.map (·.1), m⟩) a) := by
    intro e he a a' ha ha'
    rw [Holds, Holds, Copies.eval_subst (h.apart hm) (Induction.isCopies_toCopies span m binders _)
      (Induction.copyName_toCopies span m binders)
      (Expr.Scoped.mono (fun x hx => hx m hm) e (h.typed e he)) ha ha']
  simp only [quantifierGoal, Expr.subst_empty, ExprM.returns_bind] at hg hg'
  obtain ⟨a, ha, hg⟩ := hg
  obtain ⟨a', ha', hg'⟩ := hg'
  have hbody := heval body (by simp) ha ha'
  cases range with
  | none =>
    simp only [ExprM.returns_pure] at hg hg'
    subst hg hg'
    exact hbody
  | some r =>
    simp only [ExprM.returns_bind, ExprM.returns_pure] at hg hg'
    obtain ⟨u, hu, rfl⟩ := hg
    obtain ⟨u', hu', rfl⟩ := hg'
    rw [holds_imp, holds_imp, hbody, heval r (by simp) hu hu']

/-- Copies do not matter to the goal itself. -/
theorem quantifierGoal_forget (h : Inducible env v n binders range body) {m : Nat} (hm : n < m)
    (hg : (quantifierGoal v range body {}).Returns env g) :
    Holds old (ρ ∘ Copies.forget ⟨binders.map (·.1), m⟩) g ↔ Holds old ρ g := by
  have heval : ∀ e ∈ body :: range.toList, ∀ {a : IL.Expr}, (lowerExpr v e).Returns env a →
      (Holds old (ρ ∘ Copies.forget ⟨binders.map (·.1), m⟩) a ↔ Holds old ρ a) := by
    intro e he a ha
    rw [Holds, Holds, Copies.eval_forget (h.apart hm)
      (Expr.Scoped.mono (fun x hx => hx m hm) e (h.typed e he))
      (fun x hx => h.free e he x hx m hm) ha]
  simp only [quantifierGoal, Expr.subst_empty, ExprM.returns_bind] at hg
  obtain ⟨a, ha, hg⟩ := hg
  have hbody := heval body (by simp) ha
  cases range with
  | none =>
    simp only [ExprM.returns_pure] at hg
    subst hg
    exact hbody
  | some r =>
    simp only [ExprM.returns_bind, ExprM.returns_pure] at hg
    obtain ⟨u, hu, rfl⟩ := hg
    rw [holds_imp, holds_imp, hbody, heval r (by simp) hu]

/-- The where clauses of variables say what each of them says. -/
theorem holds_bindersWhere {h : IL.Expr} (hw : (bindersWhere h binders).Returns env w)
    (hσ : Holds old σ w) {b : Source.Binder} (hb : b ∈ binders) :
    ∃ o, (whereClause b.2 (.var b.1) h).Returns env o ∧ ∀ a ∈ o, Holds old σ a := by
  simp only [bindersWhere, whereClauses, ExprM.returns_bind, ExprM.returns_pure] at hw
  obtain ⟨_, ⟨os, hos, rfl⟩, rfl⟩ := hw
  rw [holds_conj] at hσ
  obtain ⟨o, ho, hr⟩ := hos.exists_of_mem hb
  exact ⟨o, hr, fun a ha => hσ a (List.mem_filterMap.2 ⟨o, ho, ha⟩)⟩

/-- One of the cases applies to values that satisfy their where clauses. -/
theorem exists_case {h : IL.Expr} (hvars : ∀ b ∈ vars, b ∈ binders)
    (hw : (bindersWhere h binders).Returns env w) (hσ : Holds old σ w) {cases : List IL.Expr}
    (hcases : (Induction.caseSplit vars).Returns env cases) : ∃ a ∈ cases, Holds old σ a := by
  fun_induction Induction.caseSplit vars with
  | case1 =>
    obtain rfl := ExprM.returns_pure.1 hcases
    exact ⟨.tt, by simp, holds_tt⟩
  | case2 x p args rest =>
    simp only [ExprM.returns_bind, ExprM.returns_datatype, ExprM.returns_pure] at hcases
    obtain ⟨d, hd, rfl⟩ := hcases
    obtain ⟨o, ho, hclause⟩ := holds_bindersWhere hw hσ (hvars _ List.mem_cons_self)
    simp only [whereClause, WhereClause.clause, WhereClause.ofDatatype, ExprM.returns_bind,
      ExprM.returns_datatype, ExprM.returns_pure] at ho
    obtain ⟨a, ⟨d', hd', rfl⟩, rfl⟩ := ho
    obtain rfl : d = d' := Except.ok.inj (hd.symm.trans hd')
    have htests := (holds_conj _).1 (hclause _ rfl)
      (.disj (d.ctors.map fun c => .app (Naming.isCtor p c.name) [.var x])) (by simp)
    exact (holds_disj _).1 htests
  | case3 b vars _ ih => exact ih (fun c hc => hvars c (List.mem_cons_of_mem _ hc)) hcases

/-- A value of an induction variable has its sort and is not negative. -/
theorem Inducible.inductive (h : Inducible env v n binders range body)
    (hσ : Model.Assigns (sortBinders binders) ρ σ)
    (hw : (bindersWhere v.heap binders).Returns env w) (hwhere : Holds old σ w)
    {b : Source.Binder} (hb : b ∈ binders) : M.Inductive b.2 (σ b.1) where
  sort := hσ.carrier (by simpa using h.distinct) (List.mem_map_of_mem hb)
  nonneg hnat := by
    obtain ⟨o, ho, hclause⟩ := holds_bindersWhere hw hwhere hb
    rw [hnat] at ho
    simp only [whereClause, WhereClause.clause, ExprM.returns_pure] at ho
    subst ho
    simpa using hclause _ rfl

/-- Values of the copies are values of the variables. -/
theorem exists_values {m : Nat} (hplain : ∀ b ∈ binders, ∀ y, b.1 ≠ Naming.renamed y m)
    (hσ : Model.Assigns (sortBinders binders) ρ σ)
    (hτ : Model.Assigns (sortBinders (Induction.renamed m binders)) σ τ) :
    ∃ σ', Model.Assigns (sortBinders binders) ρ σ' ∧
      (τ ∘ Copies.rename ⟨binders.map (·.1), m⟩) ∘ Copies.forget ⟨binders.map (·.1), m⟩ =
        σ' ∘ Copies.forget ⟨binders.map (·.1), m⟩ ∧
      ∀ b ∈ binders, τ (Naming.renamed b.1 m) = σ' b.1 := by
  obtain ⟨as, has, hτ⟩ := hτ
  have hlen : binders.length = as.length := by
    simpa [sortBinders, Induction.renamed] using has.length_eq
  have hnames : (sortBinders (Induction.renamed m binders)).map (·.1) =
      (binders.map (·.1)).map (Copies.name ⟨binders.map (·.1), m⟩) := by
    simp [Induction.renamed, Copies.name]
  rw [hnames] at hτ
  refine ⟨Model.bind ((binders.map (·.1)).zip as) ρ, ⟨as, ?_, by rw [sortBinders_names]⟩, ?_, ?_⟩
  · simp only [sortBinders, Induction.renamed, List.map_map, List.forall₂_map_left_iff] at has ⊢
    exact has
  · refine Copies.comp_rename_forget (fun x hx => ?_) (by simp [hlen]) (fun x hx => ?_) hτ
    · obtain ⟨b, hb, rfl⟩ := List.mem_map.1 hx
      exact hplain b hb
    · exact hσ.of_notMem (by rwa [sortBinders_names])
  · intro b hb
    rw [hτ]
    refine Copies.bind_name ?_
    rw [List.map_fst_zip (by simp [hlen])]
    exact List.mem_map_of_mem hb

/-- Values of the copies that satisfy the where clauses of these are values of the variables that
satisfy theirs. -/
theorem Inducible.exists_values (h : Inducible env v n binders range body) {m : Nat} (hm : n < m)
    (hσ : Model.Assigns (sortBinders binders) ρ σ)
    (hτ : Model.Assigns (sortBinders (Induction.renamed m binders)) σ τ) {w' : IL.Expr}
    (hw : (bindersWhere v.heap binders).Returns env w)
    (hw' : (bindersWhere v.heap (Induction.renamed m binders)).Returns env w')
    (hwhere : Holds old τ w') :
    ∃ σ', Model.Assigns (sortBinders binders) ρ σ' ∧ Holds old σ' w ∧
      (τ ∘ Copies.rename ⟨binders.map (·.1), m⟩) ∘ Copies.forget ⟨binders.map (·.1), m⟩ =
        σ' ∘ Copies.forget ⟨binders.map (·.1), m⟩ ∧
      ∀ b ∈ binders, τ b.1 = σ b.1 ∧ τ (Naming.renamed b.1 m) = σ' b.1 := by
  obtain ⟨σ', hσ', hagree, hcopy⟩ :=
    ContractLowering.exists_values (fun b hb => h.settled b hb m hm) hσ hτ
  refine ⟨σ', hσ', ?_, hagree, fun b hb => ⟨hτ.of_notMem fun hmem => ?_, hcopy b hb⟩⟩
  · rw [Copies.where_copies (h.apart hm) (fun b hb => List.mem_map_of_mem hb) hw hw',
      ← Copies.where_forget (h.apart hm) (fun b hb => h.settled b hb m hm) hw, hagree,
      Copies.where_forget (h.apart hm) (fun b hb => h.settled b hb m hm) hw] at hwhere
    exact hwhere
  · simp only [sortBinders_names, Induction.renamed, List.map_map, List.mem_map] at hmem
    obtain ⟨d, -, he⟩ := hmem
    exact h.settled b hb m hm _ he.symm

/-- If the obligations of a quantifier hold, then the goal holds at all values of the bound
variables that satisfy their where clauses. What makes the induction well-founded is any relation
without infinite descent: where the goal fails at values that the generated formula calls smaller
than others, these have to be related. -/
theorem quantifierObligations_sound_of {R : M.Valuation → M.Valuation → Prop} (hR : WellFounded R)
    {span : Span} (h : Inducible (s.env c) v s.decl.counter binders range body)
    (hvars : ∀ b ∈ vars, b ∈ binders) {obligations : List IL.Expr}
    (hrun : (quantifierObligations v span binders vars range body).Runs c s obligations s')
    (hhold : ∀ o ∈ obligations, Holds old ρ o)
    (hw : (bindersWhere v.heap binders).Returns (s.env c) w)
    (hg : (quantifierGoal v range body {}).Returns (s.env c) g)
    (hlower : ∀ {m σ σ' τ}, s.decl.counter < m →
      Model.Assigns (sortBinders binders) ρ σ → Holds old σ w →
      Model.Assigns (sortBinders binders) ρ σ' → Holds old σ' w → ¬ Holds old σ' g →
      Model.Assigns (sortBinders (Induction.renamed m binders)) σ τ →
      (∀ b ∈ binders, τ b.1 = σ b.1 ∧ τ (Naming.renamed b.1 m) = σ' b.1) →
      Holds old τ (Termination.decreases false (Induction.varValues vars)
        (Induction.varValues (Induction.renamed m vars))) → R σ' σ) :
    ∀ σ, Model.Assigns (sortBinders binders) ρ σ → Holds old σ w → Holds old σ g := by
  obtain ⟨-, m, w', g', g₁, w₁, cases, hm, hw', hg', hg₁, hw₁, hcases, rfl⟩ :=
    runs_quantifierObligations hrun
  obtain rfl := hw.unique hw₁
  obtain rfl := hg.unique hg₁
  intro σ
  -- induction along the relation
  induction σ using hR.induction with
  | _ σ ih =>
    intro hσ hwhere
    obtain ⟨case, hcase, hcaseσ⟩ := exists_case hvars hw hwhere hcases
    have hob := hhold _ (List.mem_map_of_mem hcase)
    rw [holds_all] at hob
    refine (holds_imp _ _).1 (hob σ hσ) ?_
    suffices hhyp : Holds old σ (hypothesisFormula m binders vars w' g') by
      simp [hwhere, hcaseσ, hhyp]
    rw [hypothesisFormula, holds_all]
    intro τ hτ
    rw [holds_imp, holds_conj]
    intro hprem
    obtain ⟨σ', hσ', hwhere', hagree, hvalues⟩ :=
      h.exists_values hm hσ hτ hw hw' (hprem w' (by simp))
    rw [quantifierGoal_copies h hm hg hg', ← quantifierGoal_forget h hm hg, hagree,
      quantifierGoal_forget h hm hg]
    by_contra hfails
    refine hfails (ih σ' ?_ hσ' hwhere')
    exact hlower hm hσ hwhere hσ' hwhere' hfails hτ hvalues (hprem _ (by simp))

/-- Induction on variables of inductive types is sound: their ranks do not go down forever. -/
theorem quantifierObligations_sound (hM : M.Ranked) {span : Span}
    (h : Inducible (s.env c) v s.decl.counter binders range body)
    (hvars : ∀ b ∈ vars, b ∈ binders ∧ b.2.isInductive = true) {obligations : List IL.Expr}
    (hrun : (quantifierObligations v span binders vars range body).Runs c s obligations s')
    (hhold : ∀ o ∈ obligations, Holds old ρ o)
    (hw : (bindersWhere v.heap binders).Returns (s.env c) w)
    (hg : (quantifierGoal v range body {}).Returns (s.env c) g) :
    ∀ σ, Model.Assigns (sortBinders binders) ρ σ → Holds old σ w → Holds old σ g := by
  refine quantifierObligations_sound_of (Lower.wf vars) h (fun b hb => (hvars b hb).1) hrun hhold
    hw hg fun {m σ σ' τ} _ hσ hwhere hσ' hwhere' _ _ hvalues hless => ?_
  refine lower_of_decreases hM (fun b hb => (hvars b hb).2) (fun b hb => ?_) (fun b hb => ?_) hless
  · exact ⟨(hvalues b (hvars b hb).1).1, h.inductive hσ hw hwhere (hvars b hb).1⟩
  · exact ⟨(hvalues b (hvars b hb).1).2, h.inductive hσ' hw hwhere' (hvars b hb).1⟩

/-- A quantifier says that its goal holds at all values that satisfy their where clauses. -/
theorem holds_quantifier {i : Info} {triggers : List (List Source.Expr)} {attr : Induction}
    {whole : IL.Expr}
    (h : (lowerExpr v (.quant i .all binders range body triggers attr)).Returns env whole) :
    ∃ w u y goal, (bindersWhere v.heap binders).Returns env w ∧
      (lowerExpr? v range).Returns env u ∧ (lowerExpr v body).Returns env y ∧
      (quantifierGoal v range body {}).Returns env goal ∧
      (∀ old (σ : M.Valuation),
        Holds old σ goal ↔ ((∀ a ∈ u, Holds old σ a) → Holds old σ y)) ∧
      ∀ old ρ : M.Valuation, Holds old ρ whole ↔
        ∀ σ, Model.Assigns (sortBinders binders) ρ σ → Holds old σ w → Holds old σ goal := by
  obtain ⟨w, hw, u, hu, y, hy, chosen, -, rfl⟩ := returns_lowerExpr_quant.1 h
  obtain ⟨goal, hgoal, hholds⟩ : ∃ goal, (quantifierGoal v range body {}).Returns env goal ∧
      ∀ old (σ : M.Valuation),
        Holds old σ goal ↔ ((∀ a ∈ u, Holds old σ a) → Holds old σ y) := by
    simp only [quantifierGoal, Expr.subst_empty]
    cases range with
    | none =>
      obtain rfl : u = none := by simpa [lowerExpr?] using hu
      exact ⟨y, by simpa using hy, by simp⟩
    | some d =>
      simp only [lowerExpr?, ExprM.returns_bind, ExprM.returns_pure] at hu
      obtain ⟨x, hx, rfl⟩ := hu
      exact ⟨.imp x y, by simpa using ⟨y, hy, x, hx, rfl⟩, by simp⟩
  refine ⟨w, u, y, goal, hw, hu, hy, hgoal, hholds, fun old ρ => ?_⟩
  have hall : Holds old ρ (.all (sortBinders binders) chosen (.imp (.conj [w, u.getD .tt]) y)) ↔ _ :=
    holds_all _ _ _
  refine hall.trans (forall_congr' fun σ => imp_congr_right fun _ => ?_)
  rw [hholds]
  cases u <;> simp [and_imp]

end

end ContractLowering
