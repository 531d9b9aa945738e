import ContractLowering.Proofs.Lowering.Footprint

/-!
# What a checked expression reads

An expression whose checks hold has the same value in a later heap that agrees with the current one
on the reads clause (`lowerExpr_unchanged`).
-/

namespace ContractLowering

open IL Source Model

variable {M : Model} {Δ : Vocabulary} {env : Env} {v : View} {hasThis : Bool} {Γ₀ Γ : Typing}
  {limits : Limits} {frame : List Source.Expr} {x : String} {old ρ σ τ : M.Valuation} {h' : M.Val}
  {G : Sorts}

/-! ## Points that the checks leave open -/

/-- What an expression takes for granted beyond its checks: objects that are read are allocated, a
receiver is an object of its class, and a matched value was built by a constructor. -/
def Point.Live (env : Env) (old : M.Valuation) (p : Point M) : Prop :=
  match p.expr with
  | .field _ obj fid => ∀ f o, env.context.field fid = .ok f → f.isMutable = true →
      (lowerExpr p.view obj).Returns env o → Holds old p.state (Heap.isAlloc p.view.heap o)
  | .index _ coll _ | .slice _ coll _ _ => ∀ elem o, coll.typ = .array elem →
      (lowerExpr p.view coll).Returns env o → Holds old p.state (Heap.isAlloc p.view.heap o)
  | .cases _ e _ => ∀ dt d s, (matchedDatatype e.typ).Returns env dt →
      env.context.datatype dt = .ok d → (lowerExpr p.view e).Returns env s →
        ∃ c ∈ d.ctors, Holds old p.state (.app (Naming.isCtor dt c.name) [s])
  | .call _ f receiver _ => ∀ g owner, env.context.function f = .ok g →
      g.reads.isEmpty = false → g.owner = some owner →
        ∀ recv, (lowerReceiver p.view receiver).Returns env recv → ∀ a ∈ recv,
          ∀ w, (Heap.receiverWhere owner a p.view.heap).Returns env w → Holds old p.state w
  | _ => True

/-- Values of bound variables at which a quantifier or a comprehension does not depend on whether
they are values of their types. -/
def Source.Expr.Idle (env : Env) (old : M.Valuation) (v : View) (τ : M.Valuation) :
    Source.Expr → Prop
  | .quant _ .all _ range body _ _ =>
    (∀ r ∈ range, Succeeds env old v τ r) → Succeeds env old v τ body
  | .quant _ .ex _ range body _ _ =>
    (∀ r ∈ range, Succeeds env old v τ r) → ¬ Succeeds env old v τ body
  | .setComp _ _ range _ | .mapComp _ _ range _ => ¬ Succeeds env old v τ range
  | _ => True

/-- An expression does not look at what is allocated: it does not ask for freshness, and values that
are values of their types in one heap only do not matter to quantifiers and comprehensions. -/
def Point.Steady (env : Env) (old : M.Valuation) (x : String) (h' : M.Val) (p : Point M) : Prop :=
  (∀ i e, p.expr ≠ .fresh i e) ∧
  ∀ binders range body w τ, p.expr.bound? = some (binders, range, body) →
    (bindersWhere p.view.heap binders).Returns env w → Assigns (sortBinders binders) p.state τ →
      (Holds old τ w → ¬ Holds old (Function.update τ x h') w → p.expr.Idle env old p.view τ) ∧
      (¬ Holds old τ w → Holds old (Function.update τ x h') w →
        p.expr.Idle env old p.view (Function.update τ x h'))

/-- A point whose checks hold, and that is live and steady with all that it leads to. -/
def Point.Tame (env : Env) (limits : Limits) (old ρ : M.Valuation) (x : String) (h' : M.Val)
    (p : Point M) : Prop :=
  p.Checked env limits old ρ ∧
    ∀ q, Visits env old p q → q.Live env old ∧ q.Steady env old x h'

namespace Point.Tame

variable {p q : Point M}

theorem part (hp : p.Tame env limits old ρ x h') (h : Part env old p q) :
    q.Tame env limits old ρ x h' :=
  ⟨hp.1.part h, fun r hr => hp.2 r (.head h hr)⟩

theorem live (hp : p.Tame env limits old ρ x h') : p.Live env old := (hp.2 p .refl).1

theorem steady (hp : p.Tame env limits old ρ x h') : p.Steady env old x h' := (hp.2 p .refl).2

theorem operand {e a : Source.Expr} (hp : Tame env limits old ρ x h' ⟨v, e, σ⟩)
    (ha : a ∈ e.operands) : Tame env limits old ρ x h' ⟨v, a, σ⟩ :=
  hp.part (.operand ha)

/-- At values of bound variables, either these are values of their types in both heaps, and what is
evaluated there is tame, or the expression does not depend on them. -/
theorem bound {e : Source.Expr} {binders : List Source.Binder} {range body : Option Source.Expr}
    {w : IL.Expr} (hp : Tame env limits old ρ x h' ⟨v, e, σ⟩)
    (he : e.bound? = some (binders, range, body)) (hw : (bindersWhere v.heap binders).Returns env w)
    (hτ : Assigns (sortBinders binders) σ τ) :
    (Holds old τ w ∧ Holds old (Function.update τ x h') w ∧
      (∀ r ∈ range, Tame env limits old ρ x h' ⟨v, r, τ⟩) ∧
      ∀ b ∈ body, (∀ r ∈ range, Succeeds env old v τ r) →
        Tame env limits old ρ x h' ⟨v, b, τ⟩) ∨
    (¬ Holds old τ w ∧ ¬ Holds old (Function.update τ x h') w) ∨
    (Holds old τ w ∧ ¬ Holds old (Function.update τ x h') w ∧ e.Idle env old v τ) ∨
    (¬ Holds old τ w ∧ Holds old (Function.update τ x h') w ∧
      e.Idle env old v (Function.update τ x h')) := by
  obtain ⟨hleft, hright⟩ := hp.steady.2 binders range body w τ he hw hτ
  by_cases hholds : Holds old τ w <;> by_cases hholds' : Holds old (Function.update τ x h') w
  · refine .inl ⟨hholds, hholds', fun r hr => ?_, fun b hb hrange => ?_⟩
    · obtain rfl := hr
      exact hp.part (.range he ⟨w, hw, hτ, hholds⟩)
    · obtain rfl := hb
      exact hp.part (.body he ⟨w, hw, hτ, hholds⟩ hrange)
  · exact .inr (.inr (.inl ⟨hholds, hholds', hleft hholds hholds'⟩))
  · exact .inr (.inr (.inr ⟨hholds, hholds', hright hholds hholds'⟩))
  · exact .inr (.inl ⟨hholds, hholds'⟩)

end Point.Tame

theorem succeeds_iff {e : Source.Expr} {a : IL.Expr} (ha : (lowerExpr v e).Returns env a) :
    Succeeds env old v σ e ↔ Holds old σ a := by
  refine ⟨fun ⟨b, hb, h⟩ => ?_, fun h => ⟨a, ha, h⟩⟩
  rwa [ha.unique hb]

/-! ## Locations -/

theorem Mentions.ne_objVar (hS : Signed Δ env) (hv : v.Apart) (hΓ : Γ Naming.objVar = none)
    {y : String} (h : Mentions env v Γ y) : y ≠ Naming.objVar := by
  rcases h with ⟨hr, -⟩ | hsome
  · exact hr.ne_objVar hS hv
  · rintro rfl
    simp [hΓ] at hsome

theorem Mentions.ne_generated (hG : Scope Δ env v hasThis Γ G) {y z : String}
    (h : Mentions env v Γ y) (hz : Generated z) : y ≠ z := by
  rintro rfl
  rcases h with ⟨-, hgen⟩ | hsome
  · exact hgen hz
  · obtain ⟨t, ht⟩ := Option.isSome_iff_exists.1 hsome
    exact (hG.vars ht).1 (.generated hz)

theorem holds_isAlloc {heap o : IL.Expr} : Holds old σ (Heap.isAlloc heap o) ↔
    M.truth (M.app "$Unbox.bool" [M.app "read" [heap.eval old σ, o.eval old σ, σ "alloc"]]) := by
  simp [Heap.isAlloc, Boxing.unboxBool, Holds, Prelude.read, Prelude.alloc,
    Prelude.BoxSort.unboxName, Prelude.BoxSort.suffix]

theorem holds_nonNullAlloc {heap o : IL.Expr} : Holds old σ (Heap.nonNullAlloc heap o) ↔
    o.eval old σ ≠ σ "null" ∧
      M.truth (M.app "$Unbox.bool" [M.app "read" [heap.eval old σ, o.eval old σ, σ "alloc"]]) := by
  simp [Heap.nonNullAlloc, Expr.ne, Prelude.null, holds_isAlloc]

namespace Replay

/-- The reads clause says of an object inside of the expression what it says outside. -/
theorem holds_frame (h : Replay Δ env v hasThis Γ₀ limits frame x old ρ h')
    (hσ : ∀ y, Mentions env v Γ₀ y → σ y = ρ y) {o a b : IL.Expr}
    (ha : (frameContains v frame o).Returns env a)
    (hb : (frameContains v frame Heap.obj).Returns env b) :
    Holds old σ a ↔ Holds old (Function.update ρ Naming.objVar (o.eval old σ)) b := by
  obtain ⟨G, hG, -⟩ := h.scope
  have hreads := h.checkable.readsSorted (.refl v) frame h.reads
  refine holds_frameContains h.checkable.signed (fun e he => (hreads e he).2) hG ha hb
    (fun y hy => ?_) (by simp [Heap.obj])
  rw [Function.update_of_ne (hy.ne_objVar h.checkable.signed h.checkable.apart
    h.checkable.limits.object), hσ y hy]

/-- An object that is there, allocated and in the reads clause has the same fields in both heaps. -/
theorem read_eq (h : Replay Δ env v hasThis Γ₀ limits frame x old ρ h')
    (hσ : Below Δ env v hasThis Γ₀ Γ ρ σ) {o cond : IL.Expr}
    (ho : SortedAs Δ env v hasThis Γ o Prelude.refSort) (hnull : o.eval old σ ≠ σ "null")
    (halloc : Holds old σ (Heap.isAlloc v.heap o))
    (hcond : (frameContains v frame o).Returns env cond) (hholds : Holds old σ cond) {f : M.Val}
    (hf : M.carrier Prelude.fieldSort f) :
    M.app "read" [h', o.eval old σ, f] = M.app "read" [σ x, o.eval old σ, f] := by
  have hS := h.checkable.signed
  obtain ⟨G, hG, hrespects⟩ := hσ.scope
  have hconst : ∀ y ∈ preludeConstants, σ y = ρ y ∧ y ≠ Naming.objVar := fun y hy =>
    have hmentions : Mentions env v Γ₀ y := .inl ⟨.const hy, not_generated_const hy⟩
    ⟨hσ.kept y hmentions, hmentions.ne_objVar hS h.checkable.apart h.checkable.limits.object⟩
  have hx : Mentions env v Γ₀ x :=
    .inl ⟨.heap (by simp [h.heap, Expr.names]), hG.heapNames x (by simp [h.heap, Expr.names])⟩
  have hxobj := hx.ne_objVar hS h.checkable.apart h.checkable.limits.object
  obtain ⟨contained, hcontained, -⟩ := frameContains_sorted (o := Heap.obj) hS.covers.operations
    (h.checkable.readsSorted (.refl v) frame h.reads)
  have hread := h.agree contained hcontained (o.eval old σ) f
    (ho.carrier h.sorted h.globals hG hrespects) hf ?_
  · rw [hread, h.heap, Expr.eval_var, hσ.kept x hx]
  · rw [holds_conj]
    simp only [List.forall_mem_cons, List.not_mem_nil, false_implies, implies_true, and_true]
    refine ⟨?_, (h.holds_frame hσ.kept hcond hcontained).1 hholds⟩
    rw [holds_isAlloc, h.heap, Expr.eval_var] at halloc
    obtain ⟨hnull', hne⟩ := hconst "null" (by decide)
    obtain ⟨halloc', hne'⟩ := hconst "alloc" (by decide)
    rw [holds_nonNullAlloc, h.heap, Expr.eval_var, Function.update_of_ne hne,
      Function.update_of_ne hne', Function.update_of_ne hxobj, Heap.obj, Expr.eval_var,
      Function.update_self, ← hnull', ← halloc', ← hσ.kept x hx]
    exact ⟨hnull, halloc⟩

/-- An object that is checked not to be null is not. -/
theorem ne_null (h : Replay Δ env v hasThis Γ₀ limits frame x old ρ h')
    (hσ : Below Δ env v hasThis Γ₀ Γ ρ σ) {obj : Source.Expr}
    (hobj : WellTyped env.context (.beside env v Γ₀) hasThis Γ obj) {o : IL.Expr}
    (ho : (lowerExpr v obj).Returns env o) {os : List Obligation}
    (hos : (Obligation.nonNull v obj).Returns env os) (hall : ∀ b ∈ os, Holds old σ b.cond) :
    o.eval old σ ≠ σ "null" := by
  unfold Obligation.nonNull at hos
  split at hos
  · -- The receiver is not checked. It is there on entry.
    rename_i hthis
    cases hobj with
    | this hreceiver htyp =>
      obtain rfl := ExprM.returns_pure.1 ho
      have hname : Mentions env v Γ₀ (v.this.getD Naming.this) :=
        have ⟨_, hG, _⟩ := h.scope
        .inl ⟨.this, hG.thisName⟩
      have hnull : Mentions env v Γ₀ "null" := .inl ⟨.const (by decide), not_generated_const (by decide)⟩
      rw [View.thisExpr, Expr.eval_var, hσ.kept _ hname, hσ.kept _ hnull, h.thisName]
      exact h.receiver hreceiver
    | _ => cases hthis
  · obtain ⟨a, ha, hos⟩ := ExprM.returns_bind.1 hos
    obtain rfl := ho.unique ha
    obtain rfl := ExprM.returns_pure.1 hos
    simpa [Expr.ne, Prelude.null] using hall _ (List.mem_singleton_self _)

/-- An object that is checked to be there and in the reads clause has the same fields in both
heaps, if it is allocated. -/
theorem readable (h : Replay Δ env v hasThis Γ₀ limits frame x old ρ h')
    (hσ : Below Δ env v hasThis Γ₀ Γ ρ σ) {obj : Source.Expr}
    (hobj : WellTyped env.context (.beside env v Γ₀) hasThis Γ obj)
    (hsort : obj.typ.sort = Prelude.refSort) {o : IL.Expr} (ho : (lowerExpr v obj).Returns env o)
    {there allowed : List Obligation} {note : String}
    (hthere : (Obligation.nonNull v obj).Returns env there)
    (hallowed : (Obligation.inReads v limits.reads obj note).Returns env allowed)
    (hall : ∀ b ∈ there ++ allowed, Holds old σ b.cond)
    (halloc : Holds old σ (Heap.isAlloc v.heap o)) {f : M.Val}
    (hf : M.carrier Prelude.fieldSort f) :
    M.app "read" [h', o.eval old σ, f] = M.app "read" [σ x, o.eval old σ, f] := by
  obtain ⟨a, ha, hsorted⟩ := lowerExpr_sorted h.checkable.signed hobj fun _ hx hr => hx.1 hr
  obtain rfl := ho.unique ha
  have hnull := h.ne_null hσ hobj ho hthere fun b hb => hall b (List.mem_append_left _ hb)
  rw [h.reads, Obligation.inReads] at hallowed
  obtain ⟨a, ha, hallowed⟩ := ExprM.returns_bind.1 hallowed
  obtain rfl := ho.unique ha
  obtain ⟨cond, hcond, hallowed⟩ := ExprM.returns_bind.1 hallowed
  obtain rfl := ExprM.returns_pure.1 hallowed
  exact h.read_eq hσ (hsort ▸ hsorted) hnull halloc hcond
    (hall _ (List.mem_append_right _ (List.mem_singleton_self _))) hf

/-- Reading a location that is the same in both heaps. -/
theorem unchanged_read (h : Replay Δ env v hasThis Γ₀ limits frame x old ρ h')
    (hσ : Below Δ env v hasThis Γ₀ Γ ρ σ) {o f : IL.Expr}
    (ho : Unchanged old σ (Function.update σ x h') o) (hf : Unchanged old σ (Function.update σ x h') f)
    (hsort : SortedAs Δ env v hasThis Γ f Prelude.fieldSort)
    (hread : ∀ f, M.carrier Prelude.fieldSort f →
      M.app "read" [h', o.eval old σ, f] = M.app "read" [σ x, o.eval old σ, f]) :
    Unchanged old σ (Function.update σ x h') (Prelude.read v.heap o f) := by
  obtain ⟨G, hG, hrespects⟩ := hσ.scope
  refine .of_eval_app (fun s => by cases s <;> decide) ?_
  simp only [Expr.eval_app, List.map_cons, List.map_nil, ho.eval, hf.eval, h.heap, Expr.eval_var,
    Function.update_self]
  exact hread _ (hsort.carrier h.sorted h.globals hG hrespects)

/-- A name that is not that of the heap. -/
theorem unchanged_var (hG : Scope Δ env v hasThis Γ G)
    (h : Replay Δ env v hasThis Γ₀ limits frame x old ρ h') {y : String} {s : Srt}
    (hy : G y = some s) (hs : s ≠ Prelude.heapSort) :
    Unchanged old σ (Function.update σ x h') (.var y) :=
  .var (Function.update_of_ne (hG.ne_heap h.heap hy hs) _ _)

end Replay

/-! ## Operands -/

/-- Wherever an expression is tame, it has the same value in both heaps. -/
def Replays (Δ : Vocabulary) (env : Env) (v : View) (hasThis : Bool) (Γ₀ : Typing) (limits : Limits)
    (x : String) (old ρ : M.Valuation) (h' : M.Val) (Γ : Typing) (e : Source.Expr) : Prop :=
  ∀ σ, Below Δ env v hasThis Γ₀ Γ ρ σ → Point.Tame env limits old ρ x h' ⟨v, e, σ⟩ →
    ∀ a, (lowerExpr v e).Returns env a → Unchanged old σ (Function.update σ x h') a

section

variable {σ' : M.Valuation}

theorem unchanged_lowerExpr? {o : Option Source.Expr} {a : Option IL.Expr}
    (h : ∀ e ∈ o, ∀ b, (lowerExpr v e).Returns env b → Unchanged old σ σ' b)
    (ha : (lowerExpr? v o).Returns env a) : ∀ b ∈ a, Unchanged old σ σ' b := by
  cases o with
  | none =>
    obtain rfl := ExprM.returns_pure.1 ha
    simp
  | some e =>
    obtain ⟨b, hb, ha⟩ := ExprM.returns_bind.1 ha
    obtain rfl := ExprM.returns_pure.1 ha
    exact fun c hc => Option.mem_some.1 hc ▸ h e rfl b hb

theorem unchanged_lowerArgs {es : List Source.Expr} {params : List Source.Binder}
    {as : List IL.Expr}
    (h : ∀ e ∈ es, ∀ b, (lowerExpr v e).Returns env b → Unchanged old σ σ' b)
    (has : (lowerArgs v params es).Returns env as) : ∀ a ∈ as, Unchanged old σ σ' a := by
  induction es generalizing params as with
  | nil =>
    obtain rfl := ExprM.returns_pure.1 has
    simp
  | cons e es ih =>
    obtain ⟨he, hes⟩ := List.forall_mem_cons.1 h
    cases params with
    | nil =>
      obtain rfl := ExprM.returns_pure.1 has
      simp
    | cons p params =>
      simp only [lowerArgs, ExprM.returns_bind, ExprM.returns_pure] at has
      obtain ⟨a, ha, rest, hrest, rfl⟩ := has
      exact List.forall_mem_cons.2 ⟨(he a ha).convert, ih hes hrest⟩

theorem unchanged_lowerElements {es : List Source.Expr} {elem : Typ}
    {add : IL.Expr → IL.Expr → IL.Expr} {acc a : IL.Expr}
    (h : ∀ e ∈ es, ∀ b, (lowerExpr v e).Returns env b → Unchanged old σ σ' b)
    (hadd : ∀ {a b}, Unchanged old σ σ' a → Unchanged old σ σ' b → Unchanged old σ σ' (add a b))
    (hacc : Unchanged old σ σ' acc) (ha : (lowerElements v elem add acc es).Returns env a) :
    Unchanged old σ σ' a := by
  induction es generalizing acc with
  | nil =>
    obtain rfl := ExprM.returns_pure.1 ha
    exact hacc
  | cons e es ih =>
    obtain ⟨he, hes⟩ := List.forall_mem_cons.1 h
    rw [lowerElements] at ha
    obtain ⟨b, hb, ha⟩ := ExprM.returns_bind.1 ha
    exact ih hes (hadd hacc (he b hb).convert.box) ha

theorem unchanged_lowerEntries {kvs : List (Source.Expr × Source.Expr)} {key value : Typ}
    {acc a : IL.Expr}
    (h : ∀ p ∈ kvs, ∀ e ∈ [p.1, p.2], ∀ b, (lowerExpr v e).Returns env b → Unchanged old σ σ' b)
    (hacc : Unchanged old σ σ' acc) (ha : (lowerEntries v key value acc kvs).Returns env a) :
    Unchanged old σ σ' a := by
  induction kvs generalizing acc with
  | nil =>
    obtain rfl := ExprM.returns_pure.1 ha
    exact hacc
  | cons p kvs ih =>
    obtain ⟨hp, hkvs⟩ := List.forall_mem_cons.1 h
    simp only [lowerEntries, ExprM.returns_bind] at ha
    obtain ⟨k, hk, e, he, ha⟩ := ha
    refine ih hkvs (.app₃ hacc ?_ ?_) ha
    · exact (hp p.1 (by simp) k hk).convert.box
    · exact (hp p.2 (by simp) e he).convert.box

theorem unchanged_lowerBindings {bs : List (String × Source.Expr)} {as : List (String × IL.Expr)}
    (h : ∀ p ∈ bs, ∀ b, (lowerExpr v p.2).Returns env b → Unchanged old σ σ' b)
    (has : (lowerBindings v bs).Returns env as) : ∀ p ∈ as, Unchanged old σ σ' p.2 := by
  induction bs generalizing as with
  | nil =>
    obtain rfl := ExprM.returns_pure.1 has
    simp
  | cons p bs ih =>
    obtain ⟨hp, hbs⟩ := List.forall_mem_cons.1 h
    simp only [lowerBindings, ExprM.returns_bind, ExprM.returns_pure] at has
    obtain ⟨a, ha, rest, hrest, rfl⟩ := has
    exact List.forall_mem_cons.2 ⟨hp a ha, ih hbs hrest⟩

theorem unchanged_receiverArgs {owner : Option Path} {r : Option Source.Expr} {as : List IL.Expr}
    (hthis : owner.isSome → r = none → Unchanged old σ σ' v.thisExpr)
    (h : ∀ e ∈ r, ∀ b, (lowerExpr v e).Returns env b → Unchanged old σ σ' b)
    (has : (receiverArgs v owner r).Returns env as) : ∀ a ∈ as, Unchanged old σ σ' a := by
  cases owner with
  | none =>
    obtain rfl := ExprM.returns_pure.1 has
    simp
  | some p =>
    cases r with
    | none =>
      obtain rfl := ExprM.returns_pure.1 has
      exact List.forall_mem_singleton.2 (hthis rfl rfl)
    | some e =>
      obtain ⟨b, hb, has⟩ := ExprM.returns_bind.1 has
      obtain rfl := ExprM.returns_pure.1 has
      exact List.forall_mem_singleton.2 (h e rfl b hb)

end

/-! ## Reading the heap -/

section

variable {i : Info} {e a b : Source.Expr}

/-- A field. -/
theorem Replays.field (h : Replay Δ env v hasThis Γ₀ limits frame x old ρ h') {fid : FieldId}
    {f : Field} (hfield : env.context.field fid = .ok f) (hobj : e.typ.sort = Prelude.refSort)
    (he : WellTyped env.context (.beside env v Γ₀) hasThis Γ e)
    (ih : Replays Δ env v hasThis Γ₀ limits x old ρ h' Γ e) :
    Replays Δ env v hasThis Γ₀ limits x old ρ h' Γ (.field i e fid) := by
  intro σ hσ ht c hc
  have hS := h.checkable.signed
  obtain ⟨G, hG, -⟩ := hσ.scope
  have hid : env.context.field f.id = .ok f := by rw [Context.id_of_field hfield]; exact hfield
  simp only [lowerExpr, ExprM.returns_bind, ExprM.returns_field, Heap.returns_fieldHandle,
    ExprM.returns_pure] at hc
  obtain ⟨g, hg, handle, rfl, o, ho, rfl⟩ := hc
  obtain rfl := Except.ok.inj (hfield.symm.trans hg)
  have hsame := ih σ hσ (ht.operand (List.mem_singleton_self _)) o ho
  refine Unchanged.convert ?_
  show Unchanged old σ _ (Heap.readField v.heap o (env.handle f))
  rw [hS.handle f hid, Heap.readField, FieldHandle.ofField]
  dsimp only
  split
  · rename_i hmut
    have hsort : SortedAs Δ env v hasThis Γ (.var (Naming.field f.id)) Prelude.fieldSort :=
      fun G hG => hG.field f hid hmut
    have hname := Replay.unchanged_var (σ := σ) hG h (hG.field f hid hmut) (by decide)
    refine (h.unchanged_read hσ hsame hname hsort ?_).unbox
    intro fld hfld
    obtain ⟨os, hos, hall⟩ := ht.1.obligations
    simp only [nodeObligations, h.reads, ExprM.returns_bind, ExprM.returns_field] at hos
    obtain ⟨there, hthere, g, hg, hos⟩ := hos
    obtain rfl := Except.ok.inj (hfield.symm.trans hg)
    rw [if_pos hmut] at hos
    simp only [ExprM.returns_bind, ExprM.returns_pure] at hos
    obtain ⟨allowed, hallowed, rfl⟩ := hos
    exact h.readable hσ he hobj ho hthere (h.reads ▸ hallowed) hall
      (ht.live f o hfield hmut ho) hfld
  · exact .app₁ hsame

/-- The elements of an array that is checked to be readable are the same in both heaps. -/
theorem Replay.arrayRead (h : Replay Δ env v hasThis Γ₀ limits frame x old ρ h')
    (hσ : Below Δ env v hasThis Γ₀ Γ ρ σ) {elem : Typ}
    (he : WellTyped env.context (.beside env v Γ₀) hasThis Γ e) (htyp : e.typ = .array elem)
    {c : IL.Expr} (hc : (lowerExpr v e).Returns env c) {os : List Obligation}
    (hos : (Obligation.arrayRead v limits e).Returns env os) (hall : ∀ b ∈ os, Holds old σ b.cond)
    (halloc : Holds old σ (Heap.isAlloc v.heap c)) {f : M.Val}
    (hf : M.carrier Prelude.fieldSort f) :
    M.app "read" [h', c.eval old σ, f] = M.app "read" [σ x, c.eval old σ, f] := by
  simp only [Obligation.arrayRead, htyp, ExprM.returns_bind, ExprM.returns_pure] at hos
  obtain ⟨there, hthere, allowed, hallowed, rfl⟩ := hos
  exact h.readable hσ he (by rw [htyp]; rfl) hc hthere hallowed hall halloc hf

/-- An element of a collection. -/
theorem Replays.index (h : Replay Δ env v hasThis Γ₀ limits frame x old ρ h')
    (htyp : a.typ.Indexes b.typ i.typ) (ha : WellTyped env.context (.beside env v Γ₀) hasThis Γ a)
    (hb : WellTyped env.context (.beside env v Γ₀) hasThis Γ b)
    (iha : Replays Δ env v hasThis Γ₀ limits x old ρ h' Γ a)
    (ihb : Replays Δ env v hasThis Γ₀ limits x old ρ h' Γ b) :
    Replays Δ env v hasThis Γ₀ limits x old ρ h' Γ (.index i a b) := by
  intro σ hσ ht c hc
  have hS := h.checkable.signed
  simp only [lowerExpr, ExprM.returns_bind] at hc
  obtain ⟨y, hy, k, hk, hc⟩ := hc
  have hcoll := iha σ hσ (ht.operand (.head _)) y hy
  have hidx := ihb σ hσ (ht.operand (.tail _ (.head _))) k hk
  cases hcase : a.typ with
  | seq elem =>
    obtain rfl : c = _ := by simpa [lowerIndex, hcase] using hc
    exact (Unchanged.app₂ hcoll hidx).unbox.convert
  | map key value =>
    obtain rfl : c = _ := by simpa [lowerIndex, hcase] using hc
    exact (Unchanged.app₂ hcoll hidx.convert.box).unbox.convert
  | multiset elem =>
    obtain rfl : c = _ := by simpa [lowerIndex, hcase] using hc
    exact .app₂ hcoll hidx.box
  | array elem =>
    obtain rfl : c = _ := by simpa [lowerIndex, hcase] using hc
    rw [hcase] at htyp
    obtain ⟨z, hz, hsorted⟩ := lowerExpr_sorted hS hb fun _ hx hr => hx.1 hr
    obtain rfl := hk.unique hz
    refine (h.unchanged_read hσ hcoll (.app₁ hidx) (fun G hG => ?_) ?_).unbox.convert
    · exact Expr.sort?_app hS.covers.operations.indexField
        (.cons ((hsorted G hG).trans (congrArg some htyp.1)) .nil)
    · intro fld hfld
      obtain ⟨os, hos, hall⟩ := ht.1.obligations
      simp only [nodeObligations, Obligation.ofIndex, hcase, ExprM.returns_bind,
        ExprM.returns_pure] at hos
      obtain ⟨readable, hreadable, _, -, _, -, rfl⟩ := hos
      exact h.arrayRead hσ ha hcase hy hreadable
        (fun o ho => hall o (List.mem_append_left _ ho)) (ht.live elem y hcase hy) hfld
  | _ => simp [hcase, Typ.Indexes] at htyp

/-- A slice needs what reading from an array needs. -/
theorem arrayRead_of_ofSlice {lo hi : Option Source.Expr} {os : List Obligation}
    (hos : (Obligation.ofSlice v limits e lo hi).Returns env os)
    (hall : ∀ o ∈ os, Holds old σ o.cond) :
    ∃ rs, (Obligation.arrayRead v limits e).Returns env rs ∧ ∀ o ∈ rs, Holds old σ o.cond := by
  unfold Obligation.ofSlice at hos
  obtain ⟨readable, hreadable, hos⟩ := ExprM.returns_bind.1 hos
  refine ⟨readable, hreadable, fun o ho => hall o ?_⟩
  cases hi <;> simp only [ExprM.returns_bind, ExprM.returns_pure, exists_eq_left] at hos
  · obtain ⟨_, -, _, -, rfl⟩ := hos
    exact List.mem_append_left _ (List.mem_append_left _ ho)
  · obtain ⟨_, -, _, -, _, -, rfl⟩ := hos
    exact List.mem_append_left _ (List.mem_append_left _ ho)

/-- A part of a sequence or an array. -/
theorem Replays.slice (h : Replay Δ env v hasThis Γ₀ limits frame x old ρ h')
    {lo hi : Option Source.Expr} (he : WellTyped env.context (.beside env v Γ₀) hasThis Γ e)
    (ih : Replays Δ env v hasThis Γ₀ limits x old ρ h' Γ e)
    (ihlo : ∀ y ∈ lo, Replays Δ env v hasThis Γ₀ limits x old ρ h' Γ y)
    (ihhi : ∀ y ∈ hi, Replays Δ env v hasThis Γ₀ limits x old ρ h' Γ y) :
    Replays Δ env v hasThis Γ₀ limits x old ρ h' Γ (.slice i e lo hi) := by
  intro σ hσ ht c hc
  have hS := h.checkable.signed
  simp only [lowerExpr, ExprM.returns_bind, ExprM.returns_pure] at hc
  obtain ⟨y, hy, l, hl, u, hu, rfl⟩ := hc
  have hcoll := ih σ hσ (ht.operand (.head _)) y hy
  refine .seqSlice ?_ (unchanged_lowerExpr? (fun z hz => ?_) hl)
    (unchanged_lowerExpr? (fun z hz => ?_) hu)
  · cases hcase : e.typ with
    | array elem =>
      obtain ⟨G, hG, hrespects⟩ := hσ.scope
      obtain ⟨z, hz, hsorted⟩ := lowerExpr_sorted hS he fun _ hx hr => hx.1 hr
      obtain rfl := hy.unique hz
      have hsort : SortedAs Δ env v hasThis Γ y Prelude.refSort := by
        rw [hcase] at hsorted
        exact hsorted
      obtain ⟨os, hos, hall⟩ := ht.1.obligations
      obtain ⟨readable, hreadable, hall⟩ := arrayRead_of_ofSlice hos hall
      refine .of_eval_app (fun s => by cases s <;> decide) ?_
      simp only [Expr.eval_app, List.map_cons, List.map_nil, hcoll.eval, h.heap, Expr.eval_var,
        Function.update_self]
      refine h.extensional.fromArray _ _ _ (hrespects x _ (hG.heapVar h.heap)) h.later
        (hsort.carrier h.sorted h.globals hG hrespects) fun k hk => ?_
      exact h.arrayRead hσ he hcase hy hreadable hall (ht.live elem y hcase hy)
        (h.sorted.app hS.covers.operations.indexField (.cons hk .nil))
    | _ => exact hcoll
  · exact ihlo z hz σ hσ (ht.operand (by simp [Expr.operands, Option.mem_def.1 hz]))
  · exact ihhi z hz σ hσ (ht.operand (by simp [Expr.operands, Option.mem_def.1 hz]))

end

/-! ## Calls -/

theorem returns_receiverWhere {p : Path} {heap o w : IL.Expr} :
    (Heap.receiverWhere p o heap).Returns env w ↔
      w = .conj [Heap.nonNullAlloc heap o, .eq (Prelude.dtype o) (.var (Naming.cls p))] := by
  simp [Heap.receiverWhere]

theorem holds_receiverWhere {p : Path} {heap o : IL.Expr} :
    Holds old σ (.conj [Heap.nonNullAlloc heap o, .eq (Prelude.dtype o) (.var (Naming.cls p))]) ↔
      Holds old σ (Heap.nonNullAlloc heap o) ∧
        M.app "dtype" [o.eval old σ] = σ (Naming.cls p) := by
  simp [Prelude.dtype]

/-- What is bound to the formals of a function has a sort. -/
theorem exists_sortedAs {g : Function} {bs : List (String × IL.Expr)}
    (hbs : BindsFormals Δ (Scope Δ env v hasThis Γ) g bs) (hG : Scope Δ env v hasThis Γ G)
    {b : String × IL.Expr} (hb : b ∈ bs) : ∃ s, SortedAs Δ env v hasThis Γ b.2 s := by
  obtain ⟨n, hn, rfl⟩ := List.getElem_of_mem hb
  have hlen : n < (g.thisBinder ++ sortBinders g.params).length := (hbs G hG).length_eq ▸ hn
  exact ⟨_, fun G' hG' => ((List.forall₂_iff_get.1 (hbs G' hG')).2 n hn hlen).2⟩

namespace Source.Function

variable {g : Function} {y : String}

/-- The formals of a function are its receiver and its parameters. -/
theorem mem_formalBinders (hy : y ∈ g.formalBinders.map (·.1)) :
    (y = Naming.this ∧ g.owner.isSome) ∨ ∃ b ∈ g.params, b.1 = y := by
  rw [formalBinders, List.map_append, sortBinders_names, List.mem_append] at hy
  rcases hy with hy | hy
  · unfold thisBinder at hy
    split at hy
    · rename_i howner
      exact .inl ⟨by simpa using hy, howner⟩
    · cases hy
  · exact .inr (List.mem_map.1 hy)

theorem mem_formalBinders_of_param (hy : (Typing.bind g.params (fun _ => none) y).isSome) :
    y ∈ g.formalBinders.map (·.1) := by
  rw [formalBinders, List.map_append, sortBinders_names, List.mem_append]
  by_contra hnot
  rw [Typing.bind_of_notMem fun hmem => hnot (.inr hmem)] at hy
  cases hy

end Source.Function

namespace Replay

variable {g : Function} {l : List (String × M.Val)} {y : String}

theorem reserved_callee (h : Replay Δ env v hasThis Γ₀ limits frame x old ρ h') :
    Reserved env v.callee y ↔ Reserved env v y := by
  have hthis : v.callee.this.getD Naming.this = v.this.getD Naming.this := h.thisName.symm
  constructor
  · intro hy
    cases hy with
    | const hy => exact .const hy
    | cls p => exact .cls p
    | field hf => exact .field hf
    | this => exact hthis ▸ .this
    | heap hy => exact .heap hy
    | oldHeap hy => exact .oldHeap hy
    | generated hy => exact .generated hy
  · intro hy
    cases hy with
    | const hy => exact .const hy
    | cls p => exact .cls p
    | field hf => exact .field hf
    | this => exact hthis ▸ .this
    | heap hy => exact .heap hy
    | oldHeap hy => exact .oldHeap hy
    | generated hy => exact .generated hy

/-- Below the formals of a function its contract sees the same names inside of an expression as
outside of it. -/
theorem formals_congr (h : Replay Δ env v hasThis Γ₀ limits frame x old ρ h')
    (hσ : ∀ y, Mentions env v Γ₀ y → σ y = ρ y)
    (hl : l.map (·.1) = g.formalBinders.map (·.1))
    (hy : Mentions env v.callee (Typing.bind g.params fun _ => none) y) :
    bind l σ y = bind l ρ y := by
  by_cases hmem : y ∈ l.map (·.1)
  · exact bind_of_mem hmem
  · rw [bind_of_notMem hmem, bind_of_notMem hmem]
    rcases hy with ⟨hr, hgen⟩ | hsome
    · exact hσ y (.inl ⟨h.reserved_callee.1 hr, hgen⟩)
    · exact absurd (Function.mem_formalBinders_of_param hsome) (hl ▸ hmem)

/-- The formals of a function do not hide a reserved name. -/
theorem bind_formals (h : Replay Δ env v hasThis Γ₀ limits frame x old ρ h')
    (hg : g.ContractTyped env.context (.contract env v))
    (hl : l.map (·.1) = g.formalBinders.map (·.1)) (hy : Reserved env v y)
    (hthis : y ≠ Naming.this) : bind l ρ y = ρ y := by
  refine bind_of_notMem fun hmem => ?_
  rcases Function.mem_formalBinders (hl ▸ hmem) with ⟨hname, -⟩ | ⟨b, hb, rfl⟩
  · exact hthis hname
  · exact (hg.params b hb).1 (h.reserved_callee.2 hy)

theorem objVar_notMem (hg : g.ContractTyped env.context (.contract env v))
    (hl : l.map (·.1) = g.formalBinders.map (·.1)) : Naming.objVar ∉ l.map (·.1) := by
  rw [hl]
  intro hmem
  rcases Function.mem_formalBinders hmem with ⟨hname, -⟩ | ⟨b, hb, hname⟩
  · exact absurd hname (by decide)
  · exact (hg.params b hb).2 hname

/-- What a callee reads the enclosing member may read, so the heaps agree on it. -/
theorem agree_callee (h : Replay Δ env v hasThis Γ₀ limits frame x old ρ h')
    (hσ : Below Δ env v hasThis Γ₀ Γ ρ σ) (hg : g.ContractTyped env.context (.contract env v))
    {bs : List (String × IL.Expr)} (hbs : BindsFormals Δ (Scope Δ env v hasThis Γ) g bs)
    {span : Span} {os : List Obligation} (hreads : g.reads.isEmpty = false)
    (hos : (Obligation.readsIncluded v v.callee span bs g.reads limits.reads).Returns env os)
    (hall : ∀ o ∈ os, Holds old σ o.cond) :
    AgreeOnFrame env old v.callee g.reads
      (bind (bs.map fun b => (b.1, b.2.eval old σ)) ρ) h' := by
  have hS := h.checkable.signed
  have hapart := h.checkable.apart
  obtain ⟨G, hG, hrespects⟩ := hσ.scope
  set l := bs.map fun b => (b.1, b.2.eval old σ) with hl
  have hnames : l.map (·.1) = g.formalBinders.map (·.1) := by
    rw [hl, List.map_map, ← List.forall₂_eq_eq_eq, List.forall₂_map_left_iff,
      List.forall₂_map_right_iff]
    exact (hbs G hG).imp fun _ _ hb => hb.1
  have hobj := objVar_notMem hg hnames
  simp only [Obligation.readsIncluded, h.reads, hreads, Bool.false_eq_true, if_false,
    ExprM.returns_bind, ExprM.returns_pure] at hos
  obtain ⟨inner, hinner, outer, houter, rfl⟩ := hos
  have hincluded := hall _ (List.mem_singleton_self _)
  intro contained hcontained o f ho hf hholds
  obtain rfl := hinner.unique hcontained
  rw [holds_conj] at hholds
  simp only [List.forall_mem_cons, List.not_mem_nil, false_implies, implies_true,
    and_true] at hholds
  obtain ⟨halloc, hinside⟩ := hholds
  -- The state of the obligation: the object is bound before the formals, to which it means nothing.
  have hvalues : (bs.map fun b => (b.1, b.2.eval old (Function.update σ Naming.objVar o))) = l := by
    refine List.map_congr_left fun b hb => ?_
    obtain ⟨s, hs⟩ := exists_sortedAs hbs hG hb
    rw [hs.eval_congr (τ := σ) hS hG fun y hy =>
      Function.update_of_ne (hy.ne_objVar hS hapart hσ.object) _ _]
  have hlets : Holds old (Function.update σ Naming.objVar o) (.lets bs inner) := by
    rw [holds_lets, hvalues, bind_update hobj]
    refine (holds_frameContains hS (v := v.callee) (fun e he => ?_)
      (hG.callee hS hapart (hg.param (.refl v))) hinner hinner (fun y hy => ?_) ?_).1 hinside
    · exact Function.ContractTyped.lowers hS (.refl v) (hg.reads e he).2
    · by_cases hyobj : y = Naming.objVar
      · rw [hyobj, Function.update_self, Function.update_self]
      · rw [Function.update_of_ne hyobj, Function.update_of_ne hyobj,
          h.formals_congr hσ.kept hnames hy]
    · simp [Heap.obj]
  have houtside : Holds old (Function.update σ Naming.objVar o) outer := by
    rw [holds_all] at hincluded
    have himp := hincluded (Function.update σ Naming.objVar o)
      (assigns_cons.2 ⟨o, ho, assigns_nil.2 rfl⟩)
    exact (holds_imp _ _).1 himp hlets
  have hkept : ∀ y, Reserved env v y → y ≠ Naming.this → bind l ρ y = ρ y :=
    fun y hy hthis => h.bind_formals hg hnames hy hthis
  have hx : Reserved env v x := .heap (by simp [h.heap, Expr.names])
  have hxthis : x ≠ Naming.this := (hapart.heap x (by simp [h.heap, Expr.names])).1
  have hxobj := hx.ne_objVar hS hapart
  have hentry : v.heap.eval old (bind l ρ) = v.heap.eval old ρ := by
    rw [h.heap, Expr.eval_var, Expr.eval_var, hkept x hx hxthis]
  show _ = M.app "read" [v.heap.eval old (bind l ρ), o, f]
  rw [hentry]
  refine h.agree outer houter o f ho hf ?_
  rw [holds_conj]
  simp only [List.forall_mem_cons, List.not_mem_nil, false_implies, implies_true, and_true]
  refine ⟨?_, ?_⟩
  · rw [holds_nonNullAlloc, Heap.obj, Expr.eval_var, Function.update_self,
      Function.update_of_ne (by decide), Function.update_of_ne (by decide)] at halloc ⊢
    rw [hkept _ (.const (by decide)) (by decide), hkept _ (.const (by decide)) (by decide)] at halloc
    have hheap : v.callee.heap.eval old (Function.update (bind l ρ) Naming.objVar o) =
        v.heap.eval old (Function.update ρ Naming.objVar o) := by
      show v.heap.eval old _ = _
      rw [h.heap, Expr.eval_var, Expr.eval_var, Function.update_of_ne hxobj,
        Function.update_of_ne hxobj, hkept x hx hxthis]
    rwa [hheap] at halloc
  · have hstate : ∀ y, Mentions env v Γ₀ y → Function.update σ Naming.objVar o y = ρ y :=
      fun y hy => (Function.update_of_ne (hy.ne_objVar hS hapart h.checkable.limits.object) _ _).trans
        (hσ.kept y hy)
    have hiff := h.holds_frame hstate houter houter
    rw [Heap.obj, Expr.eval_var, Function.update_self] at hiff
    exact hiff.1 houtside

/-- The receiver of a call is an object of its class where the callee's formals are bound. -/
theorem receiver_callee (h : Replay Δ env v hasThis Γ₀ limits frame x old ρ h')
    (hσ : Below Δ env v hasThis Γ₀ Γ ρ σ) (hg : g.ContractTyped env.context (.contract env v))
    {a : IL.Expr} (hl : l.map (·.1) = g.formalBinders.map (·.1))
    (hthis : bind l ρ Naming.this = a.eval old σ) {owner : Path} (howner : g.owner = some owner)
    (hlive : ∀ w, (Heap.receiverWhere owner a v.heap).Returns env w → Holds old σ w) :
    ∀ hyps, (g.receiverHyps v.heap).Returns env hyps → ∀ e ∈ hyps, Holds old (bind l ρ) e := by
  intro hyps hhyps
  simp only [Function.receiverHyps, howner, ExprM.returns_bind, returns_receiverWhere,
    exists_eq_left, ExprM.returns_pure] at hhyps
  obtain rfl := hhyps
  have hwhere := hlive _ (returns_receiverWhere.2 rfl)
  obtain ⟨G, hG, -⟩ := hσ.scope
  have hkept : ∀ y, Reserved env v y → ¬ Generated y → y ≠ Naming.this → bind l ρ y = σ y :=
    fun y hy hgen hne => (h.bind_formals hg hl hy hne).trans (hσ.kept y (.inl ⟨hy, hgen⟩)).symm
  have hx : Reserved env v x := .heap (by simp [h.heap, Expr.names])
  refine List.forall_mem_singleton.2 (holds_receiverWhere.2 ?_)
  rw [holds_receiverWhere, holds_nonNullAlloc, h.heap, Expr.eval_var] at hwhere
  rw [holds_nonNullAlloc, h.heap, Expr.eval_var, Expr.eval_var, hthis,
    hkept "null" (.const (by decide)) (not_generated_const (by decide)) (by decide),
    hkept "alloc" (.const (by decide)) (not_generated_const (by decide)) (by decide),
    hkept x hx (hG.heapNames x (by simp [h.heap, Expr.names]))
      (h.checkable.apart.heap x (by simp [h.heap, Expr.names])).1,
    hkept (Naming.cls owner) (.cls owner) (not_generated_cls owner) (cls_ne_of_head (by decide))]
  exact hwhere

end Replay

/-- The variant of a function that reads the heap is not called like a box. -/
theorem layered_ne_box (hS : Signed Δ env) {f : Path} {g : Function} {layer : Layer}
    (hf : env.context.function f = .ok g) (hreads : g.reads.isEmpty = false)
    (hlayer : (callLayer v f).Returns env layer) (s : Prelude.BoxSort) :
    s.boxName ≠ Naming.layered f layer ∧ s.unboxName ≠ Naming.layered f layer := by
  have hdecl : Δ.func (Naming.layered f layer) = some (g.sorts, _) :=
    hS.covers.functions f g hf _ (callLayer_declared g hlayer)
  have hsorts : ∃ rest, g.sorts = Prelude.heapSort :: rest := by
    simp [Function.sorts, hreads]
  obtain ⟨rest, hrest⟩ := hsorts
  rw [hrest] at hdecl
  refine ⟨fun heq => ?_, fun heq => ?_⟩
  · rw [← heq, hS.covers.operations.box s] at hdecl
    have hsort : s.sort = Prelude.heapSort := by simp_all
    cases s <;> exact absurd hsort (by decide)
  · rw [← heq, hS.covers.operations.unbox s] at hdecl
    have hsort : Prelude.boxSort = Prelude.heapSort := by simp_all
    exact absurd hsort (by decide)

/-- A function call. -/
theorem Replays.call (h : Replay Δ env v hasThis Γ₀ limits frame x old ρ h') {i : Info} {f : Path}
    {r : Option Source.Expr} {es : List Source.Expr} {g : Function}
    (hf : env.context.function f = .ok g) (hthis : g.owner.isSome → r = none → hasThis = true)
    (hrecv : ∀ e ∈ r, e.typ.sort = Prelude.refSort)
    (hargs : (Discipline.beside env v Γ₀).Passes es g.params)
    (hr : ∀ e ∈ r, WellTyped env.context (.beside env v Γ₀) hasThis Γ e)
    (hes : ∀ e ∈ es, WellTyped env.context (.beside env v Γ₀) hasThis Γ e)
    (ihr : ∀ e ∈ r, Replays Δ env v hasThis Γ₀ limits x old ρ h' Γ e)
    (ihes : ∀ e ∈ es, Replays Δ env v hasThis Γ₀ limits x old ρ h' Γ e) :
    Replays Δ env v hasThis Γ₀ limits x old ρ h' Γ (.call i f r es) := by
  intro σ hσ ht c hc
  have hS := h.checkable.signed
  have hg := h.checkable.contracts f g hf
  have hlowers : ∀ {e}, WellTyped env.context (.beside env v Γ₀) hasThis Γ e →
      LowersSorted Δ env v hasThis Γ e := fun he => lowerExpr_sorted hS he fun _ hx hr => hx.1 hr
  obtain ⟨G, hG, hrespects⟩ := hσ.scope
  obtain ⟨g', hg', layer, hlayer, recv, hrecvs, rest, hrests, rfl⟩ := returns_lowerExpr_call.1 hc
  obtain rfl := Except.ok.inj (hf.symm.trans hg')
  have hsame : ∀ a ∈ recv ++ rest, Unchanged old σ (Function.update σ x h') a := by
    refine List.forall_mem_append.2 ⟨unchanged_receiverArgs (fun howner hnone => ?_)
      (fun e he => ihr e he σ hσ (ht.operand ?_)) hrecvs,
      unchanged_lowerArgs (fun e he => ihes e he σ hσ (ht.operand ?_)) hrests⟩
    · exact h.unchanged_var hG (hG.this (hthis howner hnone)) (by decide)
    · simp [Expr.operands, Option.mem_def.1 he]
    · simp [Expr.operands, he]
  refine Unchanged.convert ?_
  rw [List.append_assoc, heapArgs]
  cases hreads : g.reads.isEmpty with
  | true => exact .app (by simpa using hsame)
  | false =>
    refine .of_eval_app (layered_ne_box hS hf hreads hlayer) ?_
    obtain ⟨bs, hbs, hbinds⟩ := calleeBindings_sorted hS.covers.operations
      (fun e he => hlowers (hr e he)) hrecv hthis (fun e he => hlowers (hes e he)) hargs
    have hlength : g.params.length = rest.length := by
      obtain ⟨rest', hrests', hsorts⟩ := lowerArgs_sorted hS.covers.operations
        (fun e he => hlowers (hes e he)) hargs
      obtain rfl := hrests.unique hrests'
      simpa using hsorts.length_eq.symm
    obtain ⟨recv', hrecvs', rest', hrests', rfl⟩ := returns_calleeBindings.1 hbs
    obtain rfl := hrecvs.unique hrecvs'
    obtain rfl := hrests.unique hrests'
    set bs := recv.map (Naming.this, ·) ++ (g.params.map (·.1)).zip rest with hbsdef
    have hvalues : bs.map (·.2) = recv ++ rest := by
      rw [hbsdef, List.map_append, List.map_map, List.map_snd_zip (by simp [hlength])]
      simp [Function.comp_def]
    have hnames : (bs.map fun b => (b.1, b.2.eval old σ)).map (·.1) =
        g.formalBinders.map (·.1) := by
      rw [List.map_map, ← List.forall₂_eq_eq_eq, List.forall₂_map_left_iff,
        List.forall₂_map_right_iff]
      exact (hbinds G hG).imp fun _ _ hb => hb.1
    have hzip : (g.formalBinders.map (·.1)).zip ((recv ++ rest).map (·.eval old σ)) =
        bs.map fun b => (b.1, b.2.eval old σ) := by
      rw [← hnames, ← hvalues]
      simp [List.zip_map', Function.comp_def]
    obtain ⟨os, hos, hall⟩ := ht.1.obligations
    obtain ⟨g', hg', _, -, _, -, bs', hbs', _, -, reads, hincluded, _, -, rfl⟩ :=
      returns_ofCall.1 hos
    obtain rfl := Except.ok.inj (hf.symm.trans hg')
    obtain rfl := hbs.unique hbs'
    have hagree := h.agree_callee hσ hg hbinds hreads hincluded fun o ho => hall o (by simp [ho])
    have hframed := h.framed f g hf hreads ((recv ++ rest).map (·.eval old σ)) ?_
    · rw [hzip] at hframed
      have heq := hframed ?_ hagree layer hlayer
      · have hx : Mentions env v Γ₀ x := .inl ⟨.heap (by simp [h.heap, Expr.names]),
          hG.heapNames x (by simp [h.heap, Expr.names])⟩
        simp only [Bool.false_eq_true, if_false, List.cons_append, List.nil_append,
          Expr.eval_app, List.map_cons, Unchanged.map_eval hsame, h.heap, Expr.eval_var,
          Function.update_self] at heq ⊢
        rw [heq, hσ.kept x hx]
      · cases howner : g.owner with
        | none =>
          intro hyps hhyps
          simp only [Function.receiverHyps, howner, ExprM.returns_pure] at hhyps
          simp [hhyps]
        | some owner =>
          rw [howner] at hrecvs
          have hone : ∃ a, recv = [a] := by
            cases r with
            | none => exact ⟨_, ExprM.returns_pure.1 hrecvs⟩
            | some e =>
              obtain ⟨a, -, hrecvs⟩ := ExprM.returns_bind.1 hrecvs
              exact ⟨a, ExprM.returns_pure.1 hrecvs⟩
          obtain ⟨a, rfl⟩ := hone
          refine h.receiver_callee hσ hg hnames ?_ howner
            (ht.live g owner hf hreads howner [a] hrecvs a (List.mem_singleton_self a))
          -- No parameter has the name of the receiver.
          have hfree : Naming.this ∉ (g.params.map (·.1)) := by
            intro hmem
            obtain ⟨b, hb, hname⟩ := List.mem_map.1 hmem
            exact (hg.params b hb).1 (hname ▸ .this)
          rw [hbsdef]
          simp only [List.map_cons, List.map_nil, List.cons_append, List.nil_append, bind_cons]
          rw [bind_of_notMem, Function.update_self]
          rw [List.map_map]
          simpa [Function.comp_def, List.map_fst_zip, hlength] using hfree
    · have hcarriers : List.Forall₂ (fun a s => M.carrier s (a.eval old σ)) (bs.map (·.2))
          (g.formalBinders.map (·.2)) := by
        rw [List.forall₂_map_left_iff, List.forall₂_map_right_iff]
        exact (hbinds G hG).imp fun b s hb => Expr.eval_carrier h.sorted h.globals hb.2 hrespects
      rw [hvalues, List.forall₂_map_right_iff] at hcarriers
      rw [List.forall₂_map_right_iff]
      exact hcarriers.flip

end ContractLowering
