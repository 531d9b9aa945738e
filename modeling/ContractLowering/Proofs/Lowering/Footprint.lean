import ContractLowering.Proofs.IL.Carriers
import ContractLowering.Proofs.Lowering.Evaluation
import ContractLowering.Proofs.Lowering.Unchanged
import ContractLowering.Proofs.Lowering.SortedObligations

/-!
# States that differ in the heap

An expression over a typing depends on the variables of the typing and on the names that lowered
code mentions itself (`SortedAs.eval_congr`), so whether an object is in a frame is the same in all
states that agree on these (`holds_frameContains`).

`Replay` bundles what evaluating an expression a second time starts from: a later heap that agrees
with the first one on the objects of a reads clause, and functions that depend on their own reads
clauses. `Below` says how the states inside of an expression belong to the one outside of it.
-/

namespace ContractLowering

open IL Source Model

/-! ## Names that expressions depend on -/

/-- The names that lowered expressions over a typing mention. -/
def Mentions (env : Env) (v : View) (Γ : Typing) (y : String) : Prop :=
  (Reserved env v y ∧ ¬ Generated y) ∨ (Γ y).isSome

section

variable {M : Model} {Δ : Vocabulary} {env : Env} {v : View} {hasThis : Bool} {Γ : Typing}
  {G : Sorts} {old σ τ : M.Valuation} {e : IL.Expr} {s : Srt}

open Classical in
/-- No other names need to be in scope. -/
theorem Scope.narrow (hS : Signed Δ env) (h : Scope Δ env v hasThis Γ G) :
    Scope Δ env v hasThis Γ fun y => if Mentions env v Γ y then G y else none := by
  refine h.change hS (fun y hy hgen => if_pos (.inl ⟨hy, hgen⟩)) fun {y t} hy => ?_
  exact ⟨(h.vars hy).1, (if_pos (.inr (by simp [hy]))).trans (h.vars hy).2⟩

/-- The value of an expression depends on the names that it mentions. -/
theorem SortedAs.eval_congr (hS : Signed Δ env) (he : SortedAs Δ env v hasThis Γ e s)
    (hG : Scope Δ env v hasThis Γ G) (h : ∀ y, Mentions env v Γ y → σ y = τ y) :
    e.eval old σ = e.eval old τ := by
  refine Expr.eval_congr (he _ (hG.narrow hS)) fun y hy => h y ?_
  by_contra hnot
  simp [hnot] at hy

theorem SortedAs.holds_congr (hS : Signed Δ env) (he : SortedAs Δ env v hasThis Γ e s)
    (hG : Scope Δ env v hasThis Γ G) (h : ∀ y, Mentions env v Γ y → σ y = τ y) :
    Holds old σ e ↔ Holds old τ e := by
  rw [Holds, Holds, he.eval_congr hS hG h]

/-- The value of an expression is of its sort. -/
theorem SortedAs.carrier (hM : M.Sorted Δ) (hold : Respects Δ.global old)
    (he : SortedAs Δ env v hasThis Γ e s) (hG : Scope Δ env v hasThis Γ G) (hσ : Respects G σ) :
    M.carrier s (e.eval old σ) :=
  Expr.eval_carrier hM hold (he G hG) hσ

/-! ## Frames -/

theorem returns_frameContains {frame : List Source.Expr} {o a : IL.Expr} :
    (frameContains v frame o).Returns env a ↔
      ∃ as, List.Forall₂ (fun e a => ∃ x, (lowerExpr v e).Returns env x ∧
        a = frameEntry o e.typ x) frame as ∧ a = .disj as := by
  simp only [frameContains, ExprM.returns_bind, ExprM.returns_mapM, ExprM.returns_pure]

theorem holds_frameEntry {t : Typ} {o p a : IL.Expr} (ho : o.eval old σ = p.eval old τ)
    (ha : a.eval old σ = a.eval old τ) :
    Holds old σ (frameEntry o t a) ↔ Holds old τ (frameEntry p t a) := by
  cases t <;>
    simp [frameEntry, Holds, Prelude.setMem, Prelude.multiplicity, Prelude.seqContains,
      Boxing.boxRef, ho, ha]

/-- Whether an object is in a frame depends on the object and on the names of the frame. -/
theorem holds_frameContains (hS : Signed Δ env) {frame : List Source.Expr}
    (hframe : ∀ e ∈ frame, LowersSorted Δ env v hasThis Γ e) (hG : Scope Δ env v hasThis Γ G)
    {o p a b : IL.Expr} (ha : (frameContains v frame o).Returns env a)
    (hb : (frameContains v frame p).Returns env b)
    (h : ∀ y, Mentions env v Γ y → σ y = τ y) (ho : o.eval old σ = p.eval old τ) :
    Holds old σ a ↔ Holds old τ b := by
  obtain ⟨as, has, rfl⟩ := returns_frameContains.1 ha
  obtain ⟨bs, hbs, rfl⟩ := returns_frameContains.1 hb
  rw [holds_disj, holds_disj]
  clear ha hb
  induction has generalizing bs with
  | nil =>
    obtain rfl := List.forall₂_nil_left_iff.1 hbs
    simp
  | @cons e a frame as hea _ ih =>
    obtain ⟨b, bs, heb, hrest, rfl⟩ := List.forall₂_cons_left_iff.1 hbs
    obtain ⟨⟨x, hx, hsorted⟩, hframe⟩ := List.forall_mem_cons.1 hframe
    obtain ⟨y, hy, rfl⟩ := hea
    obtain ⟨z, hz, rfl⟩ := heb
    obtain rfl := hx.unique hy
    obtain rfl := hx.unique hz
    rw [List.exists_mem_cons_iff, List.exists_mem_cons_iff, ih hframe bs hrest,
      holds_frameEntry ho (hsorted.eval_congr hS hG h)]

end

/-! ## Two heaps -/

section

variable {M : Model}

/-- What the facts about comprehensions and arrays say of a model: sets and maps that are given by
predicates and functions depend on what these are at boxes, and the sequence of an array on its
elements. -/
structure IL.Model.Extensional (M : Model) : Prop where
  fromPredicate : ∀ f g : List M.Val → M.Val,
    (∀ b, M.carrier Prelude.boxSort b → (M.truth (f [b]) ↔ M.truth (g [b]))) →
      M.app "Set.FromPredicate" [M.lam f] = M.app "Set.FromPredicate" [M.lam g]
  glue : ∀ p f g : List M.Val → M.Val,
    (∀ b, M.carrier Prelude.boxSort b → M.truth (p [b]) → f [b] = g [b]) →
      M.app "Map.Glue" [M.app "Set.FromPredicate" [M.lam p], M.lam f] =
        M.app "Map.Glue" [M.app "Set.FromPredicate" [M.lam p], M.lam g]
  fromArray : ∀ h h' a, M.carrier Prelude.heapSort h → M.carrier Prelude.heapSort h' →
    M.carrier Prelude.refSort a → (∀ i, M.carrier .int i →
      M.app "read" [h', a, M.app "IndexField" [i]] = M.app "read" [h, a, M.app "IndexField" [i]]) →
      M.app "Seq.FromArray" [h', a] = M.app "Seq.FromArray" [h, a]

/-- A later heap agrees with the current one on the objects of a frame: on all fields of those that
are there and allocated. -/
def AgreeOnFrame (env : Env) (old : M.Valuation) (v : View) (frame : List Source.Expr)
    (τ : M.Valuation) (h' : M.Val) : Prop :=
  ∀ contained, (frameContains v frame Heap.obj).Returns env contained →
    ∀ o f, M.carrier Prelude.refSort o → M.carrier Prelude.fieldSort f →
      Holds old (Function.update τ Naming.objVar o)
        (.conj [Heap.nonNullAlloc v.heap Heap.obj, contained]) →
      M.app "read" [h', o, f] = M.app "read" [v.heap.eval old τ, o, f]

/-- The names and sorts of the receiver and the parameters of a function. -/
def Source.Function.formalBinders (g : Function) : List IL.Binder :=
  g.thisBinder ++ sortBinders g.params

/-- A function has the same value in a later heap that agrees with the current one on its reads
clause. -/
def Source.Function.Framed (g : Function) (p : Path) (env : Env) (old : M.Valuation) (v : View)
    (ρ : M.Valuation) (h' : M.Val) : Prop :=
  ∀ as, List.Forall₂ (fun b a => M.carrier b.2 a) g.formalBinders as →
    let τ := bind ((g.formalBinders.map (·.1)).zip as) ρ
    (∀ hyps, (g.receiverHyps v.heap).Returns env hyps → ∀ e ∈ hyps, Holds old τ e) →
    AgreeOnFrame env old v.callee g.reads τ h' →
    ∀ layer, (callLayer v p).Returns env layer →
      M.app (Naming.layered p layer) (h' :: as) =
        M.app (Naming.layered p layer) (v.heap.eval old ρ :: as)

/-- Bound variables take no reserved name and hide no variable of `Γ₀`. -/
def Source.Discipline.beside (env : Env) (v : View) (Γ₀ : Typing) : Discipline :=
  ⟨(Discipline.checking env v Γ₀).binder, fun _ _ => True⟩

/-- What evaluating an expression again in a later heap starts from. The heap of the view is the
variable `x`, with its value in `ρ` the first time and the value `h'` the second time. -/
structure Replay (Δ : Vocabulary) (env : Env) (v : View) (hasThis : Bool) (Γ₀ : Typing)
    (limits : Limits) (frame : List Source.Expr) (x : String) (old ρ : M.Valuation) (h' : M.Val) :
    Prop where
  checkable : Checkable Δ env v hasThis Γ₀ limits
  reads : limits.reads = some frame
  heap : v.heap = .var x
  oldHeap : v.oldHeap = .var x
  thisName : v.this.getD Naming.this = Naming.this
  sorted : M.Sorted Δ
  globals : Respects Δ.global old
  extensional : M.Extensional
  scope : ∃ G, Scope Δ env v hasThis Γ₀ G ∧ Respects G ρ
  receiver : hasThis = true → ρ Naming.this ≠ ρ "null"
  later : M.carrier Prelude.heapSort h'
  agree : AgreeOnFrame env old v frame ρ h'
  framed : ∀ p g, env.context.function p = .ok g → g.reads.isEmpty = false →
    g.Framed p env old v ρ h'

/-- A state inside of an expression belongs to the one outside of it: names in scope have values of
their sorts, and the names of the enclosing member have kept theirs. -/
structure Below (Δ : Vocabulary) (env : Env) (v : View) (hasThis : Bool) (Γ₀ Γ : Typing)
    (ρ σ : M.Valuation) : Prop where
  scope : ∃ G, Scope Δ env v hasThis Γ G ∧ Respects G σ
  kept : ∀ y, Mentions env v Γ₀ y → σ y = ρ y
  object : Γ Naming.objVar = none

end

section

variable {M : Model} {Δ : Vocabulary} {env : Env} {v : View} {hasThis : Bool} {Γ₀ Γ : Typing}
  {limits : Limits} {frame : List Source.Expr} {x : String} {old ρ σ τ : M.Valuation} {h' : M.Val}
  {G : Sorts}

theorem Scope.heapVar (hG : Scope Δ env v hasThis Γ G) (hx : v.heap = .var x) :
    G x = some Prelude.heapSort := by
  have hheap := hG.ground.heap
  rwa [hx] at hheap

/-- A name with another sort is not that of the heap. -/
theorem Scope.ne_heap (hG : Scope Δ env v hasThis Γ G) (hx : v.heap = .var x) {y : String} {s : Srt}
    (hy : G y = some s) (hs : s ≠ Prelude.heapSort) : y ≠ x := by
  rintro rfl
  rw [hG.heapVar hx, Option.some.injEq] at hy
  exact hs hy.symm

namespace Below

theorem refl (h : Replay Δ env v hasThis Γ₀ limits frame x old ρ h') :
    Below Δ env v hasThis Γ₀ Γ₀ ρ ρ :=
  ⟨h.scope, fun _ _ => rfl, h.checkable.limits.object⟩

variable {bs : List Source.Binder}

theorem of_respects (hS : Signed Δ env) (h : Below Δ env v hasThis Γ₀ Γ ρ σ)
    (hbs : ∀ b ∈ bs, (Discipline.checking env v Γ₀).binder b.1)
    (hτ : ∀ G, Respects G σ → Respects (G.bind (sortBinders bs)) τ)
    (hkept : ∀ y, y ∉ bs.map (·.1) → τ y = σ y) :
    Below Δ env v hasThis Γ₀ (Γ.bind bs) ρ τ := by
  obtain ⟨G, hG, hσ⟩ := h.scope
  refine ⟨⟨_, hG.bind hS fun b hb => (hbs b hb).1, hτ G hσ⟩, fun y hy => ?_, ?_⟩
  · rw [hkept y fun hmem => ?_, h.kept y hy]
    obtain ⟨b, hb, rfl⟩ := List.mem_map.1 hmem
    rcases hy with ⟨hr, -⟩ | hsome
    · exact (hbs b hb).1 hr
    · simp [(hbs b hb).2.2] at hsome
  · refine (Typing.bind_of_notMem fun hmem => ?_).trans h.object
    obtain ⟨b, hb, hname⟩ := List.mem_map.1 hmem
    exact (hbs b hb).2.1 hname

/-- Below bound variables. -/
theorem assigns (hS : Signed Δ env) (h : Below Δ env v hasThis Γ₀ Γ ρ σ)
    (hbs : ∀ b ∈ bs, (Discipline.checking env v Γ₀).binder b.1)
    (hτ : Assigns (sortBinders bs) σ τ) : Below Δ env v hasThis Γ₀ (Γ.bind bs) ρ τ :=
  h.of_respects hS hbs (fun _ hσ => hσ.assigns hτ) fun _ hy => hτ.of_notMem (by simpa using hy)

/-- Below the bindings of a let or of a match case. -/
theorem bind (hS : Signed Δ env) (h : Below Δ env v hasThis Γ₀ Γ ρ σ)
    (hbs : ∀ b ∈ bs, (Discipline.checking env v Γ₀).binder b.1) {as : List (String × M.Val)}
    (has : List.Forall₂ (fun b a => a.1 = b.1 ∧ M.carrier b.2 a.2) (sortBinders bs) as) :
    Below Δ env v hasThis Γ₀ (Γ.bind bs) ρ (Model.bind as σ) := by
  have hnames : as.map (·.1) = bs.map (·.1) := by
    rw [← sortBinders_names]
    exact List.forall₂_eq_eq_eq ▸ List.forall₂_map_left_iff.2 (List.forall₂_map_right_iff.2
      (has.flip.imp fun _ _ hb => hb.1))
  refine h.of_respects hS hbs (fun _ hσ => hσ.bind has) fun y hy => ?_
  exact bind_of_notMem (by rwa [hnames])

end Below

/-- Bound variables do not have the name of the heap. -/
theorem heap_notMem (hx : v.heap = .var x) {bs : List Source.Binder}
    (hbs : ∀ b ∈ bs, (Discipline.checking env v Γ₀).binder b.1) : x ∉ bs.map (·.1) := by
  intro hmem
  obtain ⟨b, hb, rfl⟩ := List.mem_map.1 hmem
  exact (hbs b hb).1 (.heap (by simp [hx, Expr.names]))

end

end ContractLowering
