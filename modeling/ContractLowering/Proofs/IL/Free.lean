import ContractLowering.Proofs.IL.Recursor
import ContractLowering.Proofs.IL.Semantics

/-!
# Free names

The value of an expression depends on its free names only (`eval_congr_free`). So what binds other
names may stand between the expression and the state that it is about.
-/

namespace ContractLowering.IL

mutual

/-- The free names of an expression. -/
def Expr.free : Expr → List String
  | .bool _ | .num _ | .old _ => []
  | .var x => [x]
  | .app _ args => freeList args
  | .applyLambda _ f args => f.free ++ freeList args
  | .not e => e.free
  | .binary _ a b => a.free ++ b.free
  | .multi _ es => freeList es
  | .ite c a b => c.free ++ a.free ++ b.free
  | .letIn bs body => freeBindings bs ++ body.free.filter (· ∉ bs.map (·.1))
  | .quant _ bs _ body | .lambda bs body => body.free.filter (· ∉ bs.map (·.1))

/-- The free names of several expressions. -/
def Expr.freeList : List Expr → List String
  | [] => []
  | e :: es => e.free ++ freeList es

/-- The free names of the values of a let. -/
def Expr.freeBindings : List (String × Expr) → List String
  | [] => []
  | (_, e) :: rest => e.free ++ freeBindings rest

end

namespace Expr

variable {x : String}

theorem mem_freeList {es : List Expr} : x ∈ freeList es ↔ ∃ e ∈ es, x ∈ e.free := by
  induction es with
  | nil => simp [freeList]
  | cons e es ih => simp [freeList, ih]

theorem mem_freeBindings {bs : List (String × Expr)} :
    x ∈ freeBindings bs ↔ ∃ b ∈ bs, x ∈ b.2.free := by
  induction bs with
  | nil => simp [freeBindings]
  | cons b bs ih => simp [freeBindings, ih]

variable {M : Model} {old ρ ρ' : M.Valuation}

/-- Below binders, states that agree on what is free outside agree on what is free inside. -/
theorem bind_congr {l : List (String × M.Val)} {xs names : List String} (hl : l.map (·.1) = names)
    (h : ∀ x ∈ xs.filter (· ∉ names), ρ x = ρ' x) :
    ∀ x ∈ xs, Model.bind l ρ x = Model.bind l ρ' x := by
  intro x hx
  by_cases hmem : x ∈ l.map (·.1)
  · exact Model.bind_of_mem hmem
  · rw [Model.bind_of_notMem hmem, Model.bind_of_notMem hmem]
    exact h x (List.mem_filter.2 ⟨hx, by simpa using hl ▸ hmem⟩)

/-- Values for binders can be given in a state that agrees on what is free outside. -/
theorem assigns_congr {bs : List Binder} {xs : List String} {σ : M.Valuation}
    (h : ∀ x ∈ xs.filter (· ∉ bs.map (·.1)), ρ x = ρ' x) (hσ : Model.Assigns bs ρ σ) :
    ∃ σ', Model.Assigns bs ρ' σ' ∧ ∀ x ∈ xs, σ x = σ' x := by
  obtain ⟨as, has, rfl⟩ := hσ
  refine ⟨_, ⟨as, has, rfl⟩, bind_congr ?_ h⟩
  rw [List.map_fst_zip (by simp [has.length_eq])]

/-- The value of an expression depends on its free names only. -/
theorem eval_congr_free {e : Expr} (h : ∀ x ∈ e.free, ρ x = ρ' x) :
    e.eval old ρ = e.eval old ρ' := by
  have map {es : List Expr} {ρ ρ' : M.Valuation}
      (ih : ∀ e ∈ es, (∀ x ∈ e.free, ρ x = ρ' x) → e.eval old ρ = e.eval old ρ')
      (h : ∀ x ∈ freeList es, ρ x = ρ' x) : es.map (·.eval old ρ) = es.map (·.eval old ρ') :=
    List.map_congr_left fun e he => ih e he fun x hx => h x (mem_freeList.2 ⟨e, he, hx⟩)
  induction e using Expr.recData generalizing ρ ρ' with
  | bool | num | old => rfl
  | var x => exact h x (List.mem_singleton_self x)
  | app f args ih => rw [eval_app, eval_app, map (fun e he hx => ih e he hx) h]
  | applyLambda s f args ihf ih =>
    obtain ⟨hf, hargs⟩ := List.forall_mem_append.1 h
    rw [eval_applyLambda, eval_applyLambda, ihf hf, map (fun e he hx => ih e he hx) hargs]
  | not e ih => rw [eval_not, eval_not, ih h]
  | binary op a b iha ihb =>
    obtain ⟨ha, hb⟩ := List.forall_mem_append.1 h
    rw [eval_binary, eval_binary, iha ha, ihb hb]
  | multi op es ih => rw [eval_multi, eval_multi, map (fun e he hx => ih e he hx) h]
  | ite c a b ihc iha ihb =>
    obtain ⟨hca, hb⟩ := List.forall_mem_append.1 h
    obtain ⟨hc, ha⟩ := List.forall_mem_append.1 hca
    rw [eval_ite, eval_ite, ihc hc, iha ha, ihb hb]
  | letIn bs body ihbs ih =>
    obtain ⟨hbs, hbody⟩ := List.forall_mem_append.1 h
    have hvalues : (bs.map fun b => (b.1, b.2.eval old ρ)) =
        bs.map fun b => (b.1, b.2.eval old ρ') :=
      List.map_congr_left fun b hb => by
        rw [ihbs b hb fun x hx => hbs x (mem_freeBindings.2 ⟨b, hb, hx⟩)]
    rw [eval_letIn, eval_letIn, hvalues]
    exact ih (bind_congr (by simp [Function.comp_def]) hbody)
  | quant q bs ts body ih =>
    have hside {ρ ρ' : M.Valuation} (h : ∀ x ∈ (quant q bs ts body).free, ρ x = ρ' x)
        {σ : M.Valuation} (hσ : Model.Assigns bs ρ σ) :
        ∃ σ', Model.Assigns bs ρ' σ' ∧ body.eval old σ = body.eval old σ' := by
      obtain ⟨σ', hσ', hagree⟩ := assigns_congr h hσ
      exact ⟨σ', hσ', ih hagree⟩
    have hback : ∀ x ∈ (quant q bs ts body).free, ρ' x = ρ x := fun x hx => (h x hx).symm
    cases q with
    | all =>
      rw [eval_all, eval_all]
      refine congrArg M.ofProp (propext ⟨fun hall σ hσ => ?_, fun hall σ hσ => ?_⟩)
      · obtain ⟨σ', hσ', heq⟩ := hside hback hσ
        exact heq ▸ hall σ' hσ'
      · obtain ⟨σ', hσ', heq⟩ := hside h hσ
        exact heq ▸ hall σ' hσ'
    | ex =>
      rw [eval_ex, eval_ex]
      refine congrArg M.ofProp (propext ⟨fun hex => ?_, fun hex => ?_⟩)
      · obtain ⟨σ, hσ, htrue⟩ := hex
        obtain ⟨σ', hσ', heq⟩ := hside h hσ
        exact ⟨σ', hσ', heq ▸ htrue⟩
      · obtain ⟨σ, hσ, htrue⟩ := hex
        obtain ⟨σ', hσ', heq⟩ := hside hback hσ
        exact ⟨σ', hσ', heq ▸ htrue⟩
  | lambda bs body ih =>
    rw [eval_lambda, eval_lambda]
    refine congrArg M.lam (funext fun as => ?_)
    split
    · rename_i hlen
      refine ih (bind_congr ?_ h)
      rw [List.map_fst_zip (by simp [hlen])]
    · rfl

/-! ## Free names of what is built -/

variable {a b o : Expr} {es : List Expr}

theorem free_of_conjOperands (ho : o ∈ a.conjOperands) (hx : x ∈ o.free) : x ∈ a.free := by
  unfold conjOperands at ho
  split at ho
  · cases ho
  · exact mem_freeList.2 ⟨o, ho, hx⟩
  · rwa [← List.mem_singleton.1 ho]

theorem free_of_disjOperands (ho : o ∈ a.disjOperands) (hx : x ∈ o.free) : x ∈ a.free := by
  unfold disjOperands at ho
  split at ho
  · cases ho
  · exact mem_freeList.2 ⟨o, ho, hx⟩
  · rwa [← List.mem_singleton.1 ho]

/-- What is free in a conjunction is free in a conjunct. -/
theorem free_of_conj (hx : x ∈ (conj es).free) : ∃ e ∈ es, x ∈ e.free := by
  suffices h : ∃ o ∈ es.flatMap conjOperands, x ∈ o.free by
    obtain ⟨o, ho, hx⟩ := h
    obtain ⟨e, he, ho⟩ := List.mem_flatMap.1 ho
    exact ⟨e, he, free_of_conjOperands ho hx⟩
  unfold conj at hx
  split at hx
  · cases hx
  · split at hx
    · cases hx
    · rename_i e he
      exact ⟨e, by simp [he], hx⟩
    · exact mem_freeList.1 hx

/-- What is free in a disjunction is free in a disjunct. -/
theorem free_of_disj (hx : x ∈ (disj es).free) : ∃ e ∈ es, x ∈ e.free := by
  suffices h : ∃ o ∈ es.flatMap disjOperands, x ∈ o.free by
    obtain ⟨o, ho, hx⟩ := h
    obtain ⟨e, he, ho⟩ := List.mem_flatMap.1 ho
    exact ⟨e, he, free_of_disjOperands ho hx⟩
  unfold disj at hx
  split at hx
  · cases hx
  · split at hx
    · cases hx
    · rename_i e he
      exact ⟨e, by simp [he], hx⟩
    · exact mem_freeList.1 hx

@[simp] theorem free_neg (a : Expr) : a.neg.free = a.free := by
  unfold neg
  split <;> rfl

theorem free_of_imp (hx : x ∈ (imp a b).free) : x ∈ a.free ∨ x ∈ b.free := by
  unfold imp at hx
  split at hx
  · exact .inr hx
  · split at hx
    · cases hx
    · split at hx
      · exact .inl (by simpa using hx)
      · exact List.mem_append.1 hx

theorem free_of_all {bs : List Binder} {ts : List Trigger} (hx : x ∈ (all bs ts a).free) :
    x ∈ a.free ∧ x ∉ bs.map (·.1) := by
  unfold all quantify at hx
  split at hx
  · rename_i hbs
    exact ⟨hx, by simp [List.isEmpty_iff.1 hbs]⟩
  · simpa using List.mem_filter.1 hx

end Expr

end ContractLowering.IL
