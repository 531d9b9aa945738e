import ContractLowering.Proofs.Lowering.FunctionReads
import ContractLowering.Proofs.Lowering.Layers
import ContractLowering.Proofs.Lowering.Replaced

/-!
# What is said of formals

The definition of a function says for all values of its formals, under what is known of them, which
value a call has and which calls are made for it. These parts are Boolean where the formals have
their sorts (`Function.assumed_sorted`), and where one parameter is replaced they are related to
what they were (`Function.forall₂_argsWith`, `Function.forall₂_hyps`).
-/

namespace ContractLowering

open IL Source

/-! ## Defining facts -/

/-- A fact that defines a term says that under its hypotheses the calls are made and the term has
the value. -/
theorem DefiningFact.holds_fact {d : DefiningFact} {M : Model} {old σ : M.Valuation} :
    Holds old σ d.fact ↔ ∀ ρ, Model.Assigns d.binders σ ρ → Holds old ρ d.hyps →
      Holds old ρ d.calls ∧ d.term.eval old ρ = d.value.eval old ρ := by
  simp [DefiningFact.fact]

/-- Such a fact is Boolean if the term and the value have one sort. -/
theorem DefiningFact.fact_sorted {d : DefiningFact} {Δ : Vocabulary} {G : Sorts} {s : Srt}
    (hterm : d.term.sort? Δ (G.bind d.binders) = some s)
    (hguides : ∀ g ∈ d.guides, g.sort? Δ (G.bind d.binders) = some .bool)
    (hhyps : d.hyps.sort? Δ (G.bind d.binders) = some .bool)
    (hcalls : d.calls.sort? Δ (G.bind d.binders) = some .bool)
    (hvalue : d.value.sort? Δ (G.bind d.binders) = some s) : d.fact.sort? Δ G = some .bool := by
  refine Expr.sort?_all
    (Expr.sort?_imp hhyps (Expr.sort?_conj₂ hcalls (Expr.sort?_eq hterm hvalue)))
    (List.forall_mem_singleton.2 (List.forall_mem_cons.2 ⟨?_, fun g hg => ?_⟩))
  · rw [hterm]
    rfl
  · rw [hguides g hg]
    rfl

namespace Source.Function

/-- The view of the facts about a function that are about one heap. -/
def factsView (f : Function) : View := f.factView (.var Naming.heapParam) .default

/-- The variables that those facts are about. -/
def factBinders (f : Function) : List IL.Binder := (f.formals Naming.heapParam).binders

section

variable {Δ : Vocabulary} {env : Env} {f : Function} {body : Source.Expr} {G : Sorts}

theorem factBinders_names :
    f.factBinders.map (·.1) =
      Naming.heapParam :: (f.thisBinder.map (·.1) ++ f.params.map (·.1)) := by
  simp [factBinders, formals]

theorem factsView_heap : f.factsView.heap = .var Naming.heapParam := rfl

/-- The definition, in parts. -/
theorem returns_definition {a : IL.Expr} : (f.definition body .normal).Returns env a ↔
    ∃ hyps, (f.formalHyps (.var Naming.heapParam)).Returns env hyps ∧
    ∃ pre, (lowerTerms f.factsView f.requiresExprs).Returns env pre ∧
    ∃ value, (lowerExpr f.factsView body).Returns env value ∧
    ∃ calls, (collect .facts f.factsView body).Returns env calls ∧
      a = (f.definingFact .normal f.factBinders (f.formals Naming.heapParam).args
        (hyps ++ [f.apply .canCall (f.formals Naming.heapParam).args] ++ pre) (.conj calls)
        (Boxing.convert body.typ f.result.2 value)).fact := by
  simp only [definition, canCall, ExprM.returns_bind, ExprM.returns_pure, trigger_eq,
    existsAndEq, and_true]
  rfl

theorem factsView_this : f.factsView.this.getD Naming.this = Naming.this := by
  cases howner : f.owner <;> simp [factsView, factView, howner]

/-! ### Sorts -/

/-- The formals as arguments. -/
theorem args_sorted (hnodup : (f.params.map (·.1)).Nodup)
    (hG : Scope Δ env f.factsView f.owner.isSome f.typing G) :
    List.Forall₂ (fun a s => a.sort? Δ G = some s) (f.formals Naming.heapParam).args f.sorts := by
  have hargs : (f.formals Naming.heapParam).args = heapArgs f.factsView f ++
      f.thisBinder.map (fun b => .var b.1) ++ f.params.map (fun b => .var b.1) := rfl
  rw [hargs]
  refine callArgs_sorted ?_ ?_ hG
  · unfold thisBinder
    split
    · rename_i howner
      refine .cons (fun G hG => ?_) .nil
      have hthis := hG.this howner
      rwa [factsView_this] at hthis
    · exact .nil
  · rw [List.forall₂_map_left_iff, List.forall₂_map_right_iff]
    exact List.forall₂_same.2 fun b hb G hG => (hG.vars (Typing.bind_of_nodup hnodup hb)).2

/-- A layer that is declared, applied to arguments of the sorts of the formals. -/
theorem apply_sorted (hS : Signed Δ env) (hf : env.context.function f.name = .ok f)
    {l : Layer × Srt} (hl : l ∈ f.layers (env.context.calls.isRecursive f.name))
    {as : List IL.Expr} (has : List.Forall₂ (fun a s => a.sort? Δ G = some s) as f.sorts) :
    (f.apply l.1 as).sort? Δ G = some l.2 :=
  Expr.sort?_app (hS.covers.functions f.name f hf l hl) has

theorem receiverHyps_sorted (hS : Signed Δ env) {this : List IL.Expr}
    (hthis : (f.receiverHyps (.var Naming.heapParam)).Returns env this)
    (hG : Scope Δ env f.factsView f.owner.isSome f.typing G) :
    ∀ a ∈ this, a.sort? Δ G = some .bool := by
  unfold receiverHyps at hthis
  split at hthis
  · rw [ExprM.returns_pure.1 hthis]
    exact List.forall_mem_nil _
  · rename_i o howner
    simp only [ExprM.returns_bind, ExprM.returns_pure, returns_receiverWhere] at hthis
    obtain ⟨a, rfl, rfl⟩ := hthis
    have hself : (IL.Expr.var Naming.this).sort? Δ G = some Prelude.refSort := by
      have hsort := hG.this (by simp [howner])
      rwa [factsView_this] at hsort
    have hΔ := hS.covers.operations
    refine List.forall_mem_singleton.2 (Expr.sort?_conj₂ (Expr.sort?_conj₂
      (Expr.sort?_ne hself hG.null) (Heap.sort?_isAlloc hΔ hG.ground hself)) ?_)
    exact Expr.sort?_eq (Expr.sort?_app hΔ.dtype (.cons hself .nil)) (hG.cls o)

theorem guides_sorted (hS : Signed Δ env)
    (hG : Scope Δ env f.factsView f.owner.isSome f.typing G) :
    ∀ g ∈ f.guides (.var Naming.heapParam), g.sort? Δ G = some .bool := by
  unfold guides
  split
  · exact List.forall_mem_singleton.2
      (Expr.sort?_app hS.covers.operations.isGoodHeap (.cons hG.ground.heap .nil))
  · exact List.forall_mem_nil _

/-- What is said of the formals is Boolean. -/
theorem formalHyps_sorted (hS : Signed Δ env)
    (hparams : ∀ b ∈ f.params, ¬ Reserved env f.factsView b.1 ∧ b.2.Resolved env.context)
    (hnodup : (f.params.map (·.1)).Nodup) {hyps : List IL.Expr}
    (hhyps : (f.formalHyps (.var Naming.heapParam)).Returns env hyps)
    (hG : Scope Δ env f.factsView f.owner.isSome f.typing G) :
    ∀ a ∈ hyps, a.sort? Δ G = some .bool := by
  simp only [formalHyps, ExprM.returns_bind, ExprM.returns_pure] at hhyps
  obtain ⟨this, hthis, ws, hws, rfl⟩ := hhyps
  obtain ⟨ws', hws', hsorted⟩ := whereClauses_sorted f.factsView f.owner.isSome hS hparams
  obtain rfl := hws.unique hws'
  refine List.forall_mem_cons.2 ⟨?_, List.forall_mem_append.2
    ⟨receiverHyps_sorted hS hthis hG, hsorted hG fun b hb =>
      (hG.vars (Typing.bind_of_nodup hnodup hb)).2⟩⟩
  exact Expr.sort?_app hS.covers.operations.isGoodHeap (.cons hG.ground.heap .nil)

/-- Preconditions are Boolean. -/
theorem requires_sorted (hS : Signed Δ env) {D : Discipline}
    (hf : f.ContractTyped env.context D) (hD : ∀ x, D.binder x → ¬ Reserved env f.factsView x)
    {pre : List IL.Expr} (hpre : (lowerTerms f.factsView f.requiresExprs).Returns env pre)
    (hG : Scope Δ env f.factsView f.owner.isSome f.typing G) :
    ∀ a ∈ pre, a.sort? Δ G = some .bool := by
  have hrequires : ∀ r ∈ f.requiresExprs, r.typ.sort = .bool ∧
      WellTyped env.context D f.owner.isSome f.typing r :=
    List.forall_mem_map.2 hf.requires
  obtain ⟨as, has, hsorted⟩ :=
    lowerTerms_sorted fun r hr => lowerExpr_sorted hS (hrequires r hr).2 hD
  obtain rfl := hpre.unique has
  intro a ha
  obtain ⟨r, hr, hra⟩ := exists_of_forall₂ hsorted.flip ha
  rw [hra G hG, (hrequires r hr).1]

/-- What is assumed in the definition is Boolean. -/
theorem assumed_sorted (hS : Signed Δ env) (hf : env.context.function f.name = .ok f)
    {D : Discipline} (hcontract : f.ContractTyped env.context D)
    (hD : ∀ x, D.binder x → ¬ Reserved env f.factsView x)
    (htypes : ∀ b ∈ f.params, b.2.Resolved env.context) {hyps pre : List IL.Expr}
    (hhyps : (f.formalHyps (.var Naming.heapParam)).Returns env hyps)
    (hpre : (lowerTerms f.factsView f.requiresExprs).Returns env pre)
    (hG : Scope Δ env f.factsView f.owner.isSome f.typing G) :
    (IL.Expr.conj (hyps ++ [f.apply .canCall (f.formals Naming.heapParam).args] ++ pre)).sort? Δ G =
      some .bool := by
  refine Expr.sort?_conj (List.forall_mem_append.2 ⟨List.forall_mem_append.2
    ⟨formalHyps_sorted hS (fun b hb => ⟨hD _ (hcontract.params b hb), htypes b hb⟩) hcontract.nodup
      hhyps hG, List.forall_mem_singleton.2 ?_⟩, requires_sorted hS hcontract hD hpre hG⟩)
  exact apply_sorted (l := (.canCall, .bool)) hS hf (by simp [layers])
    (args_sorted hcontract.nodup hG)

end

/-! ### A replaced parameter -/

section

variable {env : Env} {f : Function} {R : IL.Expr → IL.Expr → Prop} {n : Nat} {q : Source.Binder}
  {w : IL.Expr}

/-- The arguments with one for a parameter replaced. -/
def argsWith (f : Function) (n : Nat) (w : IL.Expr) : List IL.Expr :=
  (f.formals Naming.heapParam).args.set
    ((f.formals Naming.heapParam).args.length - f.params.length + n) w

/-- A parameter apart from the others is at one place. -/
theorem param_ne (hnodup : (f.params.map (·.1)).Nodup) (hq : f.params[n]? = some q) {m : Nat}
    {b : Source.Binder} (hb : f.params[m]? = some b) (hne : m ≠ n) : b.1 ≠ q.1 := by
  intro heq
  have hm : (f.params.map (·.1))[m]? = some b.1 := by simp [hb]
  have hn : (f.params.map (·.1))[n]? = some b.1 := by simp [hq, heq]
  exact hne (Option.some.inj ((lastIndex_of_nodup hnodup hm).symm.trans
    (lastIndex_of_nodup hnodup hn)))

/-- The arguments, and those where one for a parameter is replaced. -/
theorem forall₂_argsWith (hnodup : (f.params.map (·.1)).Nodup) (hq : f.params[n]? = some q)
    (hkept : ∀ z ∈ f.factBinders.map (·.1), z ≠ q.1 → R (.var z) (.var z))
    (hfixed : ∀ z ∈ Naming.heapParam :: f.thisBinder.map (·.1), z ≠ q.1)
    (hw : R (.var q.1) w) :
    List.Forall₂ R (f.formals Naming.heapParam).args (f.argsWith n w) := by
  have hsame {z : String} (hz : z ∈ Naming.heapParam :: f.thisBinder.map (·.1)) :
      R (.var z) (.var z) := by
    refine hkept z ?_ (hfixed z hz)
    rw [factBinders_names, ← List.cons_append]
    exact List.mem_append_left _ hz
  obtain ⟨fixed, hargs, hall⟩ : ∃ fixed : List IL.Expr, (f.formals Naming.heapParam).args =
      fixed ++ f.params.map (fun p => .var p.1) ∧ ∀ a ∈ fixed, R a a := by
    refine ⟨_, rfl, List.forall_mem_append.2 ⟨?_, List.forall_mem_map.2 fun b hb => ?_⟩⟩
    · split
      · exact List.forall_mem_nil _
      · exact List.forall_mem_singleton.2 (hsame List.mem_cons_self)
    · exact hsame (List.mem_cons_of_mem _ (List.mem_map_of_mem hb))
  have hset : f.argsWith n w = fixed ++ (f.params.map fun p => IL.Expr.var p.1).set n w := by
    have hlen : (f.formals Naming.heapParam).args.length - f.params.length + n =
        fixed.length + n := by
      rw [hargs]
      simp
    rw [argsWith, hlen, hargs, List.set_append_right _ _ (Nat.le_add_right ..),
      Nat.add_sub_cancel_left]
  rw [hset, hargs]
  refine List.rel_append (List.forall₂_same.2 hall) (forall₂_of_getElem? (by simp) ?_)
  intro m a a' ha ha'
  rw [List.getElem?_map] at ha
  obtain ⟨b, hb, rfl⟩ := Option.map_eq_some_iff.1 ha
  rw [List.getElem?_set] at ha'
  split at ha'
  · rename_i hnm
    obtain rfl := hnm
    obtain rfl := Option.some.inj (hq.symm.trans hb)
    split at ha'
    · exact Option.some.inj ha' ▸ hw
    · cases ha'
  · rename_i hnm
    rw [List.getElem?_map, hb] at ha'
    obtain rfl := Option.some.inj ha'
    refine hkept _ ?_ (param_ne hnodup hq hb (Ne.symm hnm))
    rw [factBinders_names]
    exact List.mem_cons_of_mem _ (List.mem_append_right _
      (List.mem_map_of_mem (List.mem_of_getElem? hb)))

/-- Where clauses that say anything, of related values. -/
theorem forall₂_filterMap {os os' : List (Option IL.Expr)}
    (h : List.Forall₂ (Option.Rel R) os os') :
    List.Forall₂ R (os.filterMap id) (os'.filterMap id) := by
  induction h with
  | nil => exact .nil
  | cons ho _ ih =>
    cases ho with
    | none => exact ih
    | some hR => exact .cons hR ih

/-- What is said of the formals, and of the formals where one parameter is replaced. -/
theorem forall₂_hyps (hR : Congruence env f.factsView f.factsView R)
    (hnodup : (f.params.map (·.1)).Nodup) (hq : f.params[n]? = some q)
    (hkept : ∀ z ∈ f.factBinders.map (·.1), z ≠ q.1 → R (.var z) (.var z))
    (hw : R (.var q.1) w) {hyps this : List IL.Expr} {wheres : List (Option IL.Expr)}
    (hhyps : (f.formalHyps (.var Naming.heapParam)).Returns env hyps)
    (hthis : (f.receiverHyps (.var Naming.heapParam)).Returns env this)
    (hwheres : List.Forall₂ (fun b o => (whereClause b.1.2 (if b.2 = n then w else .var b.1.1)
      (.var Naming.heapParam)).Returns env o) f.params.zipIdx wheres) :
    List.Forall₂ R hyps
      (Prelude.isGoodHeap (.var Naming.heapParam) :: (this ++ wheres.filterMap id)) := by
  have hheap : R (.var Naming.heapParam) (.var Naming.heapParam) := hR.heap
  simp only [formalHyps, whereClauses, ExprM.returns_bind, ExprM.returns_pure,
    ExprM.returns_mapM] at hhyps
  obtain ⟨this', hthis', _, ⟨os, hos, rfl⟩, rfl⟩ := hhyps
  obtain rfl := hthis'.unique hthis
  refine .cons (hR.app₁ hheap) (List.rel_append ?_ (forall₂_filterMap ?_))
  · unfold receiverHyps at hthis
    have hthisName : R (.var Naming.this) (.var Naming.this) := by
      cases howner : f.owner <;>
        simpa [factsView, factView, howner] using hR.this
    split at hthis
    · rw [ExprM.returns_pure.1 hthis]
      exact .nil
    · simp only [ExprM.returns_bind, ExprM.returns_pure, returns_receiverWhere] at hthis
      obtain ⟨a, rfl, rfl⟩ := hthis
      exact .cons (hR.conj₂ (hR.conj₂ (hR.ne hthisName hR.null) (hR.isAlloc hheap hthisName))
        (hR.dtype _ hthisName)) .nil
  · refine forall₂_of_getElem? (hos.length_eq.symm.trans ?_) fun m o o' ho ho' => ?_
    · simpa using hwheres.length_eq
    obtain ⟨b, hb, hclause⟩ := forall₂_getElem? hos.flip ho
    obtain ⟨o'', heq, hclause'⟩ := forall₂_getElem? hwheres (n := m) (a := (b, m))
      (by simp [hb])
    obtain rfl : o'' = o' := Option.some.inj (heq.symm.trans ho')
    refine hR.clause hheap ?_ hclause hclause'
    split
    · rename_i hmn
      obtain rfl : b = q := Option.some.inj (hb.symm.trans ((congrArg _ hmn).trans hq))
      exact hw
    · rename_i hmn
      refine hkept _ ?_ (param_ne hnodup hq hb hmn)
      rw [factBinders_names]
      exact List.mem_cons_of_mem _ (List.mem_append_right _
        (List.mem_map_of_mem (List.mem_of_getElem? hb)))

end

end Source.Function

end ContractLowering
