import ContractLowering.Proofs.IL.Semantics
import ContractLowering.Proofs.IL.Sorting

/-!
# Values of sorted expressions

In a model whose functions respect a vocabulary, the value of an expression with a sort belongs to
the carrier of that sort (`eval_carrier`). An expression with a sort mentions names that are in
scope only, so its value depends on no other ones (`eval_congr`).
-/

namespace ContractLowering.IL

namespace Model

/-- The functions of a model take values of their sorts to values of their sorts. -/
structure Sorted (M : Model) (Δ : Vocabulary) : Prop where
  app : ∀ {f ss s as}, Δ.func f = some (ss, s) → List.Forall₂ M.carrier ss as →
    M.carrier s (M.app f as)
  lam : ∀ g, M.carrier .lambda (M.lam g)
  applyLam : ∀ s l as, M.carrier s (M.applyLam s l as)

variable {M : Model}

/-- Names in scope have values of their sorts. -/
def Respects (G : Sorts) (ρ : M.Valuation) : Prop := ∀ x s, G x = some s → M.carrier s (ρ x)

/-- Two valuations give the same values to the names in scope. -/
def AgreeOn (G : Sorts) (ρ ρ' : M.Valuation) : Prop := ∀ x, (G x).isSome → ρ x = ρ' x

variable {G : Sorts} {ρ ρ' : M.Valuation}

theorem Respects.update (h : Respects G ρ) {x : String} {s : Srt} {a : M.Val}
    (ha : M.carrier s a) : Respects (Function.update G x (some s)) (Function.update ρ x a) := by
  intro y t hy
  by_cases hxy : y = x
  · subst hxy
    simp only [Function.update_self, Option.some.injEq] at hy ⊢
    exact hy ▸ ha
  · rw [Function.update_of_ne hxy] at hy ⊢
    exact h y t hy

/-- Names may be bound to values of their sorts. -/
theorem Respects.bind {bs : List Binder} {as : List (String × M.Val)} (h : Respects G ρ)
    (has : List.Forall₂ (fun b a => a.1 = b.1 ∧ M.carrier b.2 a.2) bs as) :
    Respects (G.bind bs) (bind as ρ) := by
  induction has generalizing G ρ with
  | nil => exact h
  | @cons b a bs as ha _ ih =>
    rw [Sorts.bind_cons, bind_cons, ha.1]
    exact ih (h.update ha.2)

theorem Respects.assigns {bs : List Binder} (h : Respects G ρ) (hρ : Assigns bs ρ ρ') :
    Respects (G.bind bs) ρ' := by
  induction bs generalizing G ρ with
  | nil => exact assigns_nil.1 hρ ▸ h
  | cons b bs ih =>
    obtain ⟨a, ha, hρ⟩ := assigns_cons.1 hρ
    exact ih (h.update ha) hρ

theorem AgreeOn.symm (h : AgreeOn G ρ ρ') : AgreeOn G ρ' ρ := fun x hx => (h x hx).symm

theorem AgreeOn.update (h : AgreeOn G ρ ρ') (x : String) (s : Srt) (a : M.Val) :
    AgreeOn (Function.update G x (some s)) (Function.update ρ x a) (Function.update ρ' x a) := by
  intro y hy
  by_cases hxy : y = x
  · simp [hxy]
  · rw [Function.update_of_ne hxy] at hy
    rw [Function.update_of_ne hxy, Function.update_of_ne hxy]
    exact h y hy

/-- Binding the same values keeps valuations in agreement. -/
theorem AgreeOn.bind {bs : List Binder} {as : List (String × M.Val)} (h : AgreeOn G ρ ρ')
    (has : bs.map (·.1) = as.map (·.1)) : AgreeOn (G.bind bs) (bind as ρ) (bind as ρ') := by
  induction bs generalizing G ρ ρ' as with
  | nil =>
    obtain rfl := List.map_eq_nil_iff.1 has.symm
    exact h
  | cons b bs ih =>
    obtain ⟨a, as, rfl, ha, hrest⟩ := List.map_eq_cons_iff.1 has.symm
    rw [Sorts.bind_cons, bind_cons, bind_cons, ha]
    exact ih (h.update b.1 b.2 a.2) hrest.symm

/-- Values that binders take in one valuation they may take in another one. -/
theorem AgreeOn.assigns {bs : List Binder} {σ : M.Valuation} (h : AgreeOn G ρ ρ')
    (hσ : Assigns bs ρ σ) : ∃ σ', Assigns bs ρ' σ' ∧ AgreeOn (G.bind bs) σ σ' := by
  obtain ⟨as, has, rfl⟩ := hσ
  refine ⟨_, ⟨as, has, rfl⟩, h.bind ?_⟩
  rw [List.map_fst_zip (by simp [has.length_eq])]

end Model

namespace Expr

variable {M : Model} {Δ : Vocabulary} {old : M.Valuation}

open Model

theorem carrier_ofProp (p : Prop) : M.carrier .bool (M.ofProp p) := (M.carrier_bool _).2 ⟨p, rfl⟩

theorem carrier_ofInt (n : Int) : M.carrier .int (M.ofInt n) := (M.carrier_int _).2 ⟨n, rfl⟩

theorem carrier_binary {op : BinOp} {s t r : Srt} (h : op.sort? s t = some r) (a b : M.Val) :
    M.carrier r (M.binary op a b) := by
  unfold BinOp.sort? at h
  split at h <;> first | cases h | skip
  all_goals first
    | exact carrier_ofProp _
    | exact carrier_ofInt _
    | (split at h <;> cases h; exact carrier_ofProp _)

theorem carrier_multi {op : MultiOp} {ss : List Srt} {r : Srt} (h : op.sort? ss = some r)
    (as : List M.Val) : M.carrier r (M.multi op as) := by
  cases op <;> simp only [MultiOp.sort?, Option.ite_none_right_eq_some, Option.some.injEq] at h
  all_goals first
    | exact h.2 ▸ carrier_ofProp _
    | exact h.2 ▸ carrier_ofInt _

/-- The value of an expression is of its sort. -/
theorem eval_carrier (hM : M.Sorted Δ) (hold : Respects Δ.global old) {e : Expr} {s : Srt} :
    ∀ {G : Sorts} {ρ : M.Valuation}, e.sort? Δ G = some s → Respects G ρ →
      M.carrier s (e.eval old ρ) := by
  induction e using Expr.recData generalizing s with
  | bool b =>
    rintro G ρ hs hρ
    cases hs
    exact carrier_ofProp _
  | num d =>
    rintro G ρ hs hρ
    cases hs
    exact carrier_ofInt _
  | var x => exact fun hs hρ => hρ x s hs
  | old x => exact fun hs hρ => hold x s hs
  | app f args ih =>
    intro G ρ hs hρ
    obtain ⟨ss, hf, hargs⟩ := args_of_sort?_app hs
    rw [eval_app]
    refine hM.app hf (List.Forall₂.flip ?_)
    rw [List.forall₂_map_left_iff]
    exact ((List.forall₂_and_left _ _).2 ⟨fun a ha => @ih a ha, hargs⟩).imp
      fun a s h => h.1 h.2 hρ
  | applyLambda r f args _ _ =>
    intro G ρ hs hρ
    rw [sort?_applyLambda_eq, Option.ite_none_right_eq_some, Option.some.injEq] at hs
    rw [eval_applyLambda]
    exact hs.2 ▸ hM.applyLam _ _ _
  | not e _ =>
    intro G ρ hs hρ
    rw [sort?_not_eq, Option.ite_none_right_eq_some, Option.some.injEq] at hs
    exact hs.2 ▸ carrier_ofProp _
  | binary op a b _ _ =>
    intro G ρ hs hρ
    simp only [sort?_binary_eq, Option.bind_eq_some_iff] at hs
    obtain ⟨_, -, _, -, hs⟩ := hs
    exact carrier_binary hs _ _
  | multi op es _ =>
    intro G ρ hs hρ
    simp only [sort?_multi_eq, Option.bind_eq_some_iff] at hs
    obtain ⟨_, -, hs⟩ := hs
    rw [eval_multi]
    exact carrier_multi hs _
  | ite c a b _ iha ihb =>
    intro G ρ hs hρ
    rw [sort?_ite_eq, Option.ite_none_right_eq_some] at hs
    rw [eval_ite]
    split
    · exact iha hs.2 hρ
    · exact ihb (hs.1.2 ▸ hs.2) hρ
  | letIn bs body ihbs ih =>
    intro G ρ hs hρ
    obtain ⟨ss, hbs, hs⟩ := Option.bind_eq_some_iff.1 hs
    rw [eval_letIn]
    refine ih hs (hρ.bind (List.Forall₂.flip ?_))
    rw [List.forall₂_map_left_iff]
    exact ((List.forall₂_and_left _ _).2 ⟨fun b hb => @ihbs b hb, bindingSorts?_eq_some.1 hbs⟩).imp
      fun b s h => ⟨h.2.1, h.1 h.2.2 hρ⟩
  | quant q bs ts body _ =>
    intro G ρ hs hρ
    rw [sort?_quant_eq, Option.ite_none_right_eq_some, Option.some.injEq] at hs
    cases q <;> exact hs.2 ▸ carrier_ofProp _
  | lambda bs body _ =>
    intro G ρ hs hρ
    obtain ⟨_, -, rfl⟩ := Option.map_eq_some_iff.1 hs
    exact hM.lam _

/-- The value of an expression depends on the names in scope only. -/
theorem eval_congr {e : Expr} {s : Srt} :
    ∀ {G : Sorts} {ρ ρ' : M.Valuation}, e.sort? Δ G = some s → AgreeOn G ρ ρ' →
      e.eval old ρ = e.eval old ρ' := by
  have map_congr {es : List Expr} {ss : List Srt} {G : Sorts} {ρ ρ' : M.Valuation}
      (ih : ∀ e ∈ es, ∀ {s : Srt}, e.sort? Δ G = some s → e.eval old ρ = e.eval old ρ')
      (hs : List.Forall₂ (fun e s => e.sort? Δ G = some s) es ss) :
      es.map (·.eval old ρ) = es.map (·.eval old ρ') := by
    refine List.map_congr_left fun e he => ?_
    obtain ⟨s, hs⟩ := Option.isSome_iff_exists.1 (isSome_of_forall₂ hs he)
    exact ih e he hs
  induction e using Expr.recData generalizing s with
  | bool b | num d | old x => intros; rfl
  | var x =>
    intro G ρ ρ' hs h
    exact h x (Option.isSome_iff_exists.2 ⟨s, hs⟩)
  | app f args ih =>
    intro G ρ ρ' hs h
    obtain ⟨ss, -, hargs⟩ := args_of_sort?_app hs
    rw [eval_app, eval_app, map_congr (fun e he _ hs => ih e he hs h) hargs]
  | applyLambda r f args ihf ih =>
    intro G ρ ρ' hs h
    rw [sort?_applyLambda_eq, Option.ite_none_right_eq_some] at hs
    obtain ⟨⟨hf, hargs⟩, -⟩ := hs
    obtain ⟨ss, hss⟩ := Option.isSome_iff_exists.1 hargs
    rw [eval_applyLambda, eval_applyLambda, ihf hf h,
      map_congr (fun e he _ hs => ih e he hs h) (sorts?_eq_some.1 hss)]
  | not e ih =>
    intro G ρ ρ' hs h
    rw [sort?_not_eq, Option.ite_none_right_eq_some] at hs
    rw [eval_not, eval_not, ih hs.1 h]
  | binary op a b iha ihb =>
    intro G ρ ρ' hs h
    simp only [sort?_binary_eq, Option.bind_eq_some_iff] at hs
    obtain ⟨_, ha, _, hb, -⟩ := hs
    rw [eval_binary, eval_binary, iha ha h, ihb hb h]
  | multi op es ih =>
    intro G ρ ρ' hs h
    simp only [sort?_multi_eq, Option.bind_eq_some_iff] at hs
    obtain ⟨ss, hss, -⟩ := hs
    rw [eval_multi, eval_multi,
      map_congr (fun e he _ hs => ih e he hs h) (sorts?_eq_some.1 hss)]
  | ite c a b ihc iha ihb =>
    intro G ρ ρ' hs h
    rw [sort?_ite_eq, Option.ite_none_right_eq_some] at hs
    rw [eval_ite, eval_ite, ihc hs.1.1 h, iha hs.2 h, ihb (hs.1.2 ▸ hs.2) h]
  | letIn bs body ihbs ih =>
    intro G ρ ρ' hs h
    obtain ⟨ss, hbs, hs⟩ := Option.bind_eq_some_iff.1 hs
    have hbs := bindingSorts?_eq_some.1 hbs
    have hvalues : bs.map (fun b => (b.1, b.2.eval old ρ)) =
        bs.map fun b => (b.1, b.2.eval old ρ') := by
      have hsorted : List.Forall₂ (fun e s => e.sort? Δ G = some s) (bs.map (·.2))
          (ss.map (·.2)) :=
        List.forall₂_map_left_iff.2 (List.forall₂_map_right_iff.2 (hbs.imp fun _ _ hb => hb.2))
      refine List.map_congr_left fun b hb => ?_
      obtain ⟨s, hs⟩ := Option.isSome_iff_exists.1
        (isSome_of_forall₂ hsorted (List.mem_map_of_mem hb))
      rw [ihbs b hb hs h]
    have hnames : ss.map (·.1) = bs.map (·.1) := by
      rw [← List.forall₂_eq_eq_eq, List.forall₂_map_left_iff, List.forall₂_map_right_iff]
      exact List.Forall₂.flip (hbs.imp fun b s hb => hb.1.symm)
    rw [eval_letIn, eval_letIn, hvalues]
    exact ih hs (h.bind (by simpa [Function.comp_def] using hnames))
  | quant q bs ts body ih =>
    intro G ρ ρ' hs h
    rw [sort?_quant_eq, Option.ite_none_right_eq_some] at hs
    have move {ρ ρ' : M.Valuation} (h : AgreeOn G ρ ρ') {σ} (hσ : Assigns bs ρ σ) :
        ∃ σ', Assigns bs ρ' σ' ∧ body.eval old σ = body.eval old σ' := by
      obtain ⟨σ', hσ', hagree⟩ := h.assigns hσ
      exact ⟨σ', hσ', ih hs.1.1 hagree⟩
    cases q with
    | all =>
      rw [eval_all, eval_all]
      congr 1
      refine propext ⟨fun hall σ hσ => ?_, fun hall σ hσ => ?_⟩
      · obtain ⟨σ', hσ', heq⟩ := move h.symm hσ
        exact heq ▸ hall σ' hσ'
      · obtain ⟨σ', hσ', heq⟩ := move h hσ
        exact heq ▸ hall σ' hσ'
    | ex =>
      rw [eval_ex, eval_ex]
      congr 1
      refine propext ⟨?_, ?_⟩
      · rintro ⟨σ, hσ, htrue⟩
        obtain ⟨σ', hσ', heq⟩ := move h hσ
        exact ⟨σ', hσ', heq ▸ htrue⟩
      · rintro ⟨σ, hσ, htrue⟩
        obtain ⟨σ', hσ', heq⟩ := move h.symm hσ
        exact ⟨σ', hσ', heq ▸ htrue⟩
  | lambda bs body ih =>
    intro G ρ ρ' hs h
    obtain ⟨_, hs, -⟩ := Option.map_eq_some_iff.1 hs
    rw [eval_lambda, eval_lambda]
    congr 1
    funext as
    split
    · rename_i hlen
      refine ih hs (h.bind ?_)
      rw [List.map_fst_zip (by simp [hlen])]
    · rfl

end Expr

end ContractLowering.IL
