import ContractLowering.Lowering.Method
import ContractLowering.Proofs.Lowering.ChosenInduction
import ContractLowering.Proofs.Lowering.Emits

/-!
# What a lemma may assume of itself

A lemma that is proved by induction assumes its contract at smaller arguments. In the assumption
in-parameters are replaced by copies, while out-parameters stand for the values they have at the
time. So it follows from the contract, which grants some values of the out-parameters at each
argument, if postconditions do not mention these (`hypothesis_of_contract`). If they do, the
assumption may be false, and the body is verified vacuously (`hypothesis_false_of_result`).
-/

namespace ContractLowering

open IL Source

variable {M : Model} {nil : M.Val} {old ρ σ σ' τ : M.Valuation} {env : Env} {v : View}

/-! ## Variables that do not occur -/

/-- The values of variables that do not occur free do not matter. -/
theorem Copies.eval_of_notFree {k : Copies} (h : k.Apart env v) {Γ : Typing} {e : Source.Expr}
    (he : e.Scoped k.Plain (PatternFits env.context) Γ) (hfree : ∀ x ∈ e.freeVars, x ∉ k.vars)
    {a : IL.Expr} (ha : (lowerExpr v e).Returns env a) (hσ : ∀ x, x ∉ k.vars → σ x = σ' x) :
    a.eval old σ = a.eval old σ' := by
  have hscoped := Expr.Scoped.mono (fun x hx => hx.not_isCopy) e he
  have hnone : ({} : Subst).IsCopies k Γ := ⟨rfl, by simp⟩
  have hcopied := lowerExpr_copies e ⟨hnone, h.fixes_rename⟩
    ⟨hscoped, fun x hx => Copies.rename_of_notMem (hfree x hx)⟩ ha (by rwa [Expr.subst_empty])
  -- both valuations give the copies of the variables the same values
  have hagree : σ ∘ k.rename = σ' ∘ k.rename := by
    funext x
    by_cases hx : x ∈ k.vars
    · simp only [Function.comp_apply, Copies.rename_of_mem hx]
      exact hσ _ fun hmem => h.plain _ hmem x rfl
    · simp only [Function.comp_apply, Copies.rename_of_notMem hx]
      exact hσ x hx
  calc a.eval old σ = a.eval old (σ ∘ k.rename) := hcopied.eval_eq Copies.avoids_rename
    _ = a.eval old (σ' ∘ k.rename) := by rw [hagree]
    _ = a.eval old σ' := (hcopied.eval_eq Copies.avoids_rename).symm

/-! ## Clauses at copies -/

section

variable {n m : Nat} {binders : List Source.Binder} {span : Span}

/-- A clause at the copies says what it says where the variables have the values of the copies. -/
theorem Inducible.holds_copy {e : Source.Expr} (h : Inducible env v n binders none e) (hm : n < m)
    {a a' : IL.Expr} (ha : (lowerExpr v e).Returns env a)
    (ha' : (lowerExpr v (e.subst (Induction.toCopies span m binders))).Returns env a')
    (hσ : (τ ∘ Copies.rename ⟨binders.map (·.1), m⟩) ∘ Copies.forget ⟨binders.map (·.1), m⟩ =
      σ ∘ Copies.forget ⟨binders.map (·.1), m⟩) : Holds old τ a' ↔ Holds old σ a := by
  have hg : (quantifierGoal v none e {}).Returns env a := by
    simpa [quantifierGoal] using ha
  have hg' : (quantifierGoal v none e (Induction.toCopies span m binders)).Returns env a' := by
    simpa [quantifierGoal] using ha'
  rw [quantifierGoal_copies h hm hg hg', ← quantifierGoal_forget h hm hg, hσ,
    quantifierGoal_forget h hm hg]

/-- The same for a list of clauses. -/
theorem holds_copies {es : List Source.Expr} (h : ∀ e ∈ es, Inducible env v n binders none e)
    (hm : n < m) {as as' : List IL.Expr}
    (has : List.Forall₂ (fun e a => (lowerExpr v e).Returns env a) es as)
    (has' : List.Forall₂ (fun e a => (lowerExpr v (e.subst
      (Induction.toCopies span m binders))).Returns env a) es as')
    (hσ : (τ ∘ Copies.rename ⟨binders.map (·.1), m⟩) ∘ Copies.forget ⟨binders.map (·.1), m⟩ =
      σ ∘ Copies.forget ⟨binders.map (·.1), m⟩) :
    (∀ a ∈ as', Holds old τ a) ↔ ∀ a ∈ as, Holds old σ a := by
  induction has generalizing as' with
  | nil =>
    cases has'
    simp
  | cons ha _ ih =>
    obtain _ | ⟨ha', has'⟩ := has'
    rw [List.forall_mem_cons, List.forall_mem_cons,
      (h _ (List.mem_cons_self ..)).holds_copy hm ha ha' hσ,
      ih (fun e he => h e (List.mem_cons_of_mem _ he)) has']

end

/-! ## The hypothesis of a lemma -/

/-- What makes the induction hypothesis of a lemma follow from its contract, when numbers up to `c`
have been given out. Its clauses can be copied, out-parameters have names of their own, and
postconditions do not mention them. -/
structure Source.Method.Inducible (env : Env) (v : View) (c : Nat) (m : Method) : Prop where
  clauses : ∀ s ∈ m.requires ++ m.ensures, ContractLowering.Inducible env v c m.ins none s.expr
  settled : ∀ b ∈ m.outs, Settled c b.1
  binder : ∀ b ∈ m.outs, ¬ Reserved env v b.1
  copy : ∀ b ∈ m.outs, ∀ n, c < n → ¬ Reserved env v (Naming.renamed b.1 n)
  apart : ∀ s ∈ m.ensures, ∀ x ∈ s.expr.freeVars, x ∉ m.outs.map (·.1)

variable {c : Context} {s s' : Progress} {m : Method}

/-- The out-parameters do not matter to a postcondition. -/
theorem Source.Method.Inducible.holds_ensures {n : Nat} (h : m.Inducible env v n) {e : Spec}
    (he : e ∈ m.ensures) {a : IL.Expr} (ha : (lowerExpr v e.expr).Returns env a)
    (hσ : ∀ x, x ∉ m.outs.map (·.1) → σ x = σ' x) : Holds old σ a ↔ Holds old σ' a := by
  have hclause := h.clauses e (List.mem_append_right _ he)
  have hapart : Copies.Apart ⟨m.outs.map (·.1), n + 1⟩ env v := {
    plain := fun x hx y => by
      obtain ⟨b, hb, rfl⟩ := List.mem_map.1 hx
      exact h.settled b hb _ n.lt_succ_self y
    vars := fun x hx => by
      obtain ⟨b, hb, rfl⟩ := List.mem_map.1 hx
      exact h.binder b hb
    copies := fun x hx => by
      obtain ⟨b, hb, rfl⟩ := List.mem_map.1 hx
      exact h.copy b hb _ n.lt_succ_self
    heap := fun x hx => hclause.heap x hx _ n.lt_succ_self
    oldHeap := fun x hx => hclause.oldHeap x hx _ n.lt_succ_self }
  have hscoped := hclause.typed e.expr (by simp)
  rw [Holds, Holds, Copies.eval_of_notFree hapart
    (Expr.Scoped.mono (fun x hx => hx _ n.lt_succ_self) _ hscoped) (h.apart e he) ha hσ]

/-- What is assumed is the hypothesis for the variables that induction is on. -/
theorem emits_assumeHypothesis {ss : List IL.Stmt}
    (h : (m.assumeHypothesis v).Emits c s () ss s') {a : IL.Expr} (ha : .assume a ∈ ss) :
    ∃ vars s₁, (inductionVars m.induction m.ins
        (m.requires.map (·.expr) ++ m.ensures.map (·.expr))).Returns (s.env c) vars ∧
      s.Later c s₁ ∧
      (lemmaHypothesis v m.span m.ins vars (m.requires.map (·.expr))
        (m.ensures.map (·.expr))).Runs c s₁ a s' := by
  simp only [Source.Method.assumeHypothesis, BodyM.emits_expr_bind] at h
  obtain ⟨vars, hvars, h⟩ := h
  split at h
  · simp only [BodyM.emits_decl_bind, BodyM.assume, BodyM.emits_add] at h
    obtain ⟨ih, s₁, hih, rfl, rfl⟩ := h
    obtain rfl : a = ih := by simpa using ha
    have hrun : (DeclM.ofExpr (inductionVars m.induction m.ins
        (m.requires.map (·.expr) ++ m.ensures.map (·.expr)))).Runs c s vars _ :=
      DeclM.gives_ofExpr.2 ⟨hvars, rfl⟩
    exact ⟨vars, _, hvars, (hrun.ofExpr (inductionVars_stable _ _ _)).2, hih⟩
  · obtain ⟨-, rfl, -⟩ := BodyM.emits_pure.1 h
    simp at ha

/-- The contract of a lemma at arguments: if its preconditions hold, then its postconditions do for
some values of the out-parameters. -/
def ContractAt (m : Method) (old σ : M.Valuation) (pre post : List IL.Expr) : Prop :=
  (∀ a ∈ pre, Holds old σ a) →
    ∃ τ, (∀ x, x ∉ m.outs.map (·.1) → τ x = σ x) ∧ ∀ a ∈ post, Holds old τ a

/-- What a lemma proves by induction, with variables replaced. -/
def contractGoal (v : View) (requires ensures : List Source.Expr) (s : Subst) :
    ExprM IL.Expr := do
  let pre ← requires.mapM fun e => lowerExpr v (e.subst s)
  let post ← ensures.mapM fun e => lowerExpr v (e.subst s)
  return .imp (.conj pre) (.conj post)

theorem contractGoal_stable (requires ensures : List Source.Expr) (t : Subst) :
    (contractGoal v requires ensures t).Stable :=
  (ExprM.Stable.mapM fun _ _ => lowerExpr_stable _ v).bind fun _ =>
    (ExprM.Stable.mapM fun _ _ => lowerExpr_stable _ v).bind fun _ => .pure _

/-- The generated comparison of variables with their copies is that of their values. -/
theorem holds_smaller_iff {vars : List Source.Binder} {n : Nat} (hM : M.Collections)
    (hnull : τ "null" = nil) (hold : ∀ b ∈ vars, τ b.1 = σ b.1 ∧ M.carrier b.2.sort (σ b.1))
    (hnew : ∀ b ∈ vars, τ (Naming.renamed b.1 n) = σ' b.1 ∧ M.carrier b.2.sort (σ' b.1)) :
    Holds old τ (Termination.decreases false (Induction.varValues vars)
        (Induction.varValues (Induction.renamed n vars))) ↔
      M.Lex nil False (Source.Binder.components vars) (vars.map fun b => σ' b.1)
        (vars.map fun b => σ b.1) := by
  rw [holds_decreases_iff hM hnull (of_varValues fun b hb => (hold b hb).1 ▸ (hold b hb).2)
    (of_varValues_renamed fun b hb => (hnew b hb).1 ▸ (hnew b hb).2),
    eval_varValues fun b hb => (hold b hb).1, eval_varValues_renamed fun b hb => (hnew b hb).1]
  simp

/-- The hypothesis that a lemma assumes of itself follows from its contract: it is true in every
state where the contract holds at all arguments that are smaller in the induction variables. -/
theorem hypothesis_of_contract (hstate : Model.PreludeState nil old ρ)
    (hm : m.Inducible (s.env c) v s.decl.counter) {ss : List IL.Stmt}
    (hrun : (m.assumeHypothesis v).Emits c s () ss s')
    {vars : List Source.Binder}
    (hvars : (inductionVars m.induction m.ins
      (m.requires.map (·.expr) ++ m.ensures.map (·.expr))).Returns (s.env c) vars)
    {w : IL.Expr} (hw : (bindersWhere v.heap m.ins).Returns (s.env c) w)
    {pre post : List IL.Expr}
    (hpre : (m.requires.mapM fun r => lowerExpr v r.expr).Returns (s.env c) pre)
    (hpost : (m.ensures.mapM fun e => lowerExpr v e.expr).Returns (s.env c) post)
    (hins : ∀ b ∈ m.ins, M.carrier b.2.sort (ρ b.1))
    (hcontract : ∀ σ, Model.Assigns (sortBinders m.ins) ρ σ → Holds old σ w →
      M.Lex nil False (Source.Binder.components vars) (vars.map fun b => σ b.1)
        (vars.map fun b => ρ b.1) → ContractAt m old σ pre post)
    {a : IL.Expr} (ha : .assume a ∈ ss) : Holds old ρ a := by
  obtain ⟨vars₁, s₁, hvars₁, hs, hih⟩ := emits_assumeHypothesis hrun ha
  obtain rfl := hvars.unique hvars₁
  replace hih : (Induction.hypothesis v m.span m.ins vars (contractGoal v
    (m.requires.map (·.expr)) (m.ensures.map (·.expr)))).Runs c s₁ a s' := hih
  obtain ⟨-, n, w', g', hn, hw', hg', rfl⟩ := runs_hypothesis (contractGoal_stable _ _) hih
  have hn : s.decl.counter < n := Nat.lt_of_le_of_lt hs.counter hn
  have hw' := ((bindersWhere_stable _ _).returns hs.same).1 hw'
  have hg' := ((contractGoal_stable _ _ _).returns hs.same).1 hg'
  simp only [contractGoal, ExprM.returns_bind, ExprM.returns_pure, ExprM.returns_mapM,
    List.forall₂_map_left_iff] at hg' hpre hpost
  obtain ⟨pre', hpre', post', hpost', rfl⟩ := hg'
  rw [hypothesisFormula, holds_all]
  intro τ hτ
  simp only [holds_imp, holds_conj, List.forall_mem_cons]
  rintro ⟨hwhere, hsmaller, -⟩ hpre'τ
  by_cases hnone : m.ensures = []
  · rw [hnone] at hpost'
    cases hpost'
    simp
  obtain ⟨e, he⟩ := List.exists_mem_of_ne_nil _ hnone
  have hclause := hm.clauses e (List.mem_append_right _ he)
  have hself : Model.Assigns (sortBinders m.ins) ρ ρ := by
    refine .self fun b hb => ?_
    obtain ⟨d, hd, rfl⟩ := List.mem_map.1 hb
    exact hins d hd
  obtain ⟨σ, hσ, hwhereσ, hagree, hvalues⟩ := hclause.exists_values hn hself hτ hw hw' hwhere
  have hsub := mem_of_inductionVars hvars
  -- where the variables have the values of the copies, the contract holds
  have hless : M.Lex nil False (Source.Binder.components vars) (vars.map fun b => σ b.1)
      (vars.map fun b => ρ b.1) := by
    refine (holds_smaller_iff (Prelude.collections_of_prelude hstate.toSatisfiesPrelude) ?_
      (fun b hb => ⟨(hvalues b (hsub b hb)).1, hins b (hsub b hb)⟩)
      (fun b hb => ⟨(hvalues b (hsub b hb)).2, ?_⟩)).1 hsmaller
    · rw [hτ.of_notMem, hstate.null]
      simp only [sortBinders_names, Induction.renamed, List.map_map, List.mem_map,
        Function.comp_apply]
      rintro ⟨b, hb, hb'⟩
      exact hclause.copy b hb n hn (hb' ▸ .const (by simp [preludeConstants]))
    · exact hσ.carrier (by simpa using hclause.distinct)
        (List.mem_map_of_mem (f := fun b => (b.1, b.2.sort)) (hsub b hb))
  have hclauses : ∀ l ⊆ m.requires ++ m.ensures, ∀ e ∈ l.map (·.expr),
      ContractLowering.Inducible (s.env c) v s.decl.counter m.ins none e := by
    intro l hl e he
    obtain ⟨r, hr, rfl⟩ := List.mem_map.1 he
    exact hm.clauses r (hl hr)
  obtain ⟨σ', hσ', hpostσ'⟩ := hcontract σ hσ hwhereσ hless
    ((holds_copies (hclauses m.requires (by simp)) hn (by simpa using hpre) (by simpa using hpre')
      hagree).1 hpre'τ)
  refine (holds_copies (hclauses m.ensures (by simp)) hn (by simpa using hpost)
      (by simpa using hpost') hagree).2 fun a ha => ?_
  obtain ⟨d, hd, hda⟩ := exists_of_forall₂ hpost ha
  exact (hm.holds_ensures hd hda fun x hx => (hσ' x hx).symm).2 (hpostσ' a ha)

/-! ## Out-parameters in postconditions -/

namespace Results

/-- A lemma about a number, with an out-parameter and one postcondition. -/
def lemmaOf (ensures : Source.Expr) : Method where
  name := ⟨"M", ["C", "l"]⟩
  span := default
  owner := none
  isLemma := true
  typParams := []
  ins := [("k", .nat)]
  outs := [("known", .nat)]
  requires := []
  modifies := []
  ensures := [⟨ensures, false, false⟩]
  decreases := none
  body := none
  induction := .default
  refinement := default

/-- A postcondition about the number alone. -/
def nonneg : Source.Expr := Nonneg.body

/-- A postcondition that says what the out-parameter is. -/
def copied : Source.Expr :=
  .mkRel default .eq (.mkVar default "known" .nat) (.mkVar default "k" .nat)

/-- A state in a body at an argument. -/
def state (n r : ℤ) : (Standard.model Interval.nothing).Valuation :=
  Function.update (Function.update (Interval.state 0 0 0) "k" (.int n)) "known" (.int r)

theorem preludeState (n r : ℤ) :
    Model.PreludeState (M := Standard.model Interval.nothing) (.ref .null) (state n r)
      (state n r) :=
  { Standard.satisfiesPrelude Interval.nothing ⟨rfl, rfl, rfl, rfl, rfl⟩ with null := rfl }

/-- What is assumed of a formula about the number. -/
def hypothesis (g : String → IL.Expr) : IL.Expr :=
  .all [("k%1", .int)] [] (.imp (.conj [.le (.nat 0) (.var "k%1"), .lt (.var "k%1") (.var "k")])
    (g "k%1"))

theorem emits_nonneg : ((lemmaOf nonneg).assumeHypothesis entryView).Emits eagerContext {} ()
    [.assume (hypothesis fun k => .le (.nat 0) (.var k))] { decl := { counter := 1 } } := rfl

theorem emits_copied : ((lemmaOf copied).assumeHypothesis entryView).Emits eagerContext {} ()
    [.assume (hypothesis fun k => .eq (.var "known") (.var k))] { decl := { counter := 1 } } := rfl

theorem holds_hypothesis {g : String → IL.Expr} :
    Holds old ρ (hypothesis g) ↔ ∀ n, 0 ≤ n → n < M.toInt (ρ "k") →
      Holds old (Function.update ρ "k%1" (M.ofInt n)) (g "k%1") := by
  simp [hypothesis, Model.assigns_cons, M.carrier_int]

/-- Two smaller numbers leave no value for the out-parameter. -/
theorem not_holds_copied (h : 2 ≤ M.toInt (ρ "k")) :
    ¬ Holds old ρ (hypothesis fun k => .eq (.var "known") (.var k)) := by
  intro hhyp
  have hzero := holds_hypothesis.1 hhyp 0 (by omega) (by omega)
  have hone := holds_hypothesis.1 hhyp 1 (by omega) (by omega)
  simp only [holds_eq, Expr.eval, Function.update_self, Function.update_of_ne (by decide :
    "known" ≠ "k%1")] at hzero hone
  have heq := congrArg M.toInt (hzero.symm.trans hone)
  simp at heq

theorem inducible_nonneg :
    (lemmaOf nonneg).Inducible (Progress.env {} eagerContext) entryView 0 where
  clauses := by
    intro s hs
    obtain rfl : s = ⟨nonneg, false, false⟩ := by simpa [lemmaOf] using hs
    exact Nonneg.inducible
  settled := by
    intro b hb
    obtain rfl : b = ("known", .nat) := by simpa [lemmaOf] using hb
    exact settled_of_notMem (by decide)
  binder := by
    intro b hb h
    obtain rfl : b = ("known", .nat) := by simpa [lemmaOf] using hb
    exact Nonneg.not_reserved h rfl
  copy := by
    intro b hb n _ h
    obtain rfl : b = ("known", .nat) := by simpa [lemmaOf] using hb
    exact Nonneg.not_reserved h (by simp [Naming.renamed])
  apart := by
    intro s hs x hx
    obtain rfl : s = ⟨nonneg, false, false⟩ := by simpa [lemmaOf] using hs
    obtain rfl : x = "k" := by
      simpa [nonneg, Nonneg.body, Source.Expr.mkRel, Source.Expr.mkInt, Source.Expr.mkVar,
        Source.Expr.freeVars] using hx
    simp [lemmaOf]

end Results

theorem hypothesis_of_contract_nonneg :
    ∃ a s', ((Results.lemmaOf Results.nonneg).assumeHypothesis entryView).Emits eagerContext {} ()
        [.assume a] s' ∧ Holds (Results.state 2 0) (Results.state 2 0) a := by
  have hvars : (inductionVars .default (Results.lemmaOf Results.nonneg).ins [Results.nonneg]).Returns
      (Progress.env {} eagerContext) [("k", .nat)] := rfl
  have hpre : ((Results.lemmaOf Results.nonneg).requires.mapM fun r =>
      lowerExpr entryView r.expr).Returns (Progress.env {} eagerContext) [] := rfl
  have hpost : ((Results.lemmaOf Results.nonneg).ensures.mapM fun e =>
      lowerExpr entryView e.expr).Returns (Progress.env {} eagerContext)
        [.le (.nat 0) (.var "k")] := rfl
  refine ⟨_, _, Results.emits_nonneg, ?_⟩
  refine hypothesis_of_contract (Results.preludeState 2 0) Results.inducible_nonneg
    Results.emits_nonneg hvars (w := .le (.nat 0) (.var "k")) rfl hpre hpost ?_ ?_ (by simp)
  · intro b hb
    obtain rfl : b = ("k", .nat) := by simpa [Results.lemmaOf] using hb
    rfl
  · intro σ _ hwhere _ _
    exact ⟨σ, fun _ _ => rfl, by simpa using hwhere⟩

/-- A lemma with a postcondition about its out-parameter assumes what is false, though its contract
holds at every argument: that the value at the time is the one for all smaller arguments. -/
theorem hypothesis_false_of_result :
    ∃ a s', ((Results.lemmaOf Results.copied).assumeHypothesis entryView).Emits eagerContext {} ()
        [.assume a] s' ∧
      (inductionVars .default (Results.lemmaOf Results.copied).ins [Results.copied]).Returns
        (Progress.env {} eagerContext) [("k", .nat)] ∧
      ((Results.lemmaOf Results.copied).ensures.mapM fun e => lowerExpr entryView e.expr).Returns
        (Progress.env {} eagerContext) [.eq (.var "known") (.var "k")] ∧
      (∀ σ, ContractAt (M := Standard.model Interval.nothing) (Results.lemmaOf Results.copied)
        (Results.state 2 0) σ [] [.eq (.var "known") (.var "k")]) ∧
      Model.PreludeState (M := Standard.model Interval.nothing) (.ref .null) (Results.state 2 0)
        (Results.state 2 0) ∧
      ¬ Holds (Results.state 2 0) (Results.state 2 0) a := by
  refine ⟨_, _, Results.emits_copied, rfl, rfl, fun σ _ => ?_, Results.preludeState 2 0, ?_⟩
  · refine ⟨Function.update σ "known" (σ "k"), fun x hx => ?_, ?_⟩
    · exact Function.update_of_ne (by simpa [Results.lemmaOf] using hx) _ _
    · simp
  · exact Results.not_holds_copied (by decide)

end ContractLowering
