import ContractLowering.Lowering.Function
import ContractLowering.Proofs.Lowering.Applied

/-!
# Layers are stratified

The facts that define a function are equations for one term of the function, under hypotheses and
with the facts of the calls in its body. Apart from that term, what an equation applies is foreign
or a layer that the mode of the view gives: in the definition of the normal layer and at
constructors calls into the component of the function are limited, in that of the unrolled layer
they are normal (`Function.layers_stratified`). So no equation applies what another one of the same
layer defines.
-/

namespace ContractLowering

open IL Source

/-! ## Defining facts -/

/-- The parts of a fact that says which value a function has for arguments, under hypotheses, and
which calls that value makes. -/
structure DefiningFact where
  binders : List IL.Binder
  name : String
  args : List IL.Expr
  /-- The terms of the trigger beside the one that is defined. -/
  guides : List IL.Expr
  hyps : IL.Expr
  calls : IL.Expr
  value : IL.Expr

namespace DefiningFact

variable (d : DefiningFact)

/-- The term that is defined. -/
def term : IL.Expr := .app d.name d.args

/-- The fact. -/
def fact : IL.Expr :=
  .all d.binders [d.term :: d.guides] (.imp d.hyps (.conj [d.calls, .eq d.term d.value]))

/-- The functions that the fact applies, apart from the one that is defined. -/
def heads : List String := Expr.headsList (d.args ++ d.guides ++ [d.hyps, d.calls, d.value])

variable {d} {P : String → Prop}

theorem heads_iff : (∀ h ∈ d.heads, P h) ↔ (∀ a ∈ d.args, a.AppliesOnly P) ∧
    (∀ e ∈ d.guides, e.AppliesOnly P) ∧ d.hyps.AppliesOnly P ∧ d.calls.AppliesOnly P ∧
      d.value.AppliesOnly P := by
  rw [heads, Expr.appliesOnly_headsList, List.forall_mem_append, List.forall_mem_append,
    List.forall_mem_cons, List.forall_mem_cons, List.forall_mem_singleton, and_assoc]

/-- The fact applies what is defined and what is listed beside it. -/
theorem fact_applies (hname : P d.name) (h : ∀ f ∈ d.heads, P f) : d.fact.AppliesOnly P := by
  obtain ⟨hargs, hguides, hhyps, hcalls, hvalue⟩ := heads_iff.1 h
  have hterm : d.term.AppliesOnly P := Expr.appliesOnly_app.2 ⟨hname, hargs⟩
  refine .all (List.forall_mem_singleton.2 (List.forall_mem_cons.2 ⟨hterm, hguides⟩)) ?_
  exact .imp hhyps (.conj₂ hcalls (Expr.appliesOnly_eq.2 ⟨hterm, hvalue⟩))

end DefiningFact

/-! ## Facts about functions -/

section

variable {P : String → Prop} {env : Env} {f : Function} {heap : IL.Expr}

open IL.Expr (AppliesOnly)

namespace Source.Function

theorem args_applies (f : Function) (heap : String) :
    ∀ a ∈ (f.formals heap).args, a.AppliesOnly P := by
  refine List.forall_mem_append.2 ⟨List.forall_mem_append.2 ⟨?_, ?_⟩, ?_⟩
  · split
    · exact List.forall_mem_nil _
    · exact List.forall_mem_singleton.2 (Expr.appliesOnly_var _)
  · exact List.forall_mem_map.2 fun b _ => Expr.appliesOnly_var _
  · exact List.forall_mem_map.2 fun b _ => Expr.appliesOnly_var _

theorem receiverHyps_applies (hP : ∀ {h}, Foreign env h → P h) (hheap : heap.AppliesOnly P) :
    (f.receiverHyps heap).Always env fun es => ∀ e ∈ es, e.AppliesOnly P := by
  unfold receiverHyps
  split
  · exact .pure (List.forall_mem_nil _)
  · exact (Heap.receiverWhere_applies hP _ (Expr.appliesOnly_var _) hheap).bind fun _ he =>
      .pure (List.forall_mem_singleton.2 he)

theorem formalHyps_applies (hP : ∀ {h}, Foreign env h → P h) (hheap : heap.AppliesOnly P) :
    (f.formalHyps heap).Always env fun es => ∀ e ∈ es, e.AppliesOnly P :=
  (receiverHyps_applies hP hheap).bind fun _ hthis => (whereClauses_applies hP _ hheap).bind
    fun _ hparams => .pure (List.forall_mem_cons.2 ⟨op₁_applies hP .isGoodHeap hheap,
      List.forall_mem_append.2 ⟨hthis, hparams⟩⟩)

/-- What a trigger holds beside the term that it is on. -/
def guides (f : Function) (heap : IL.Expr) : List IL.Expr :=
  if f.reads.isEmpty then [Prelude.isGoodHeap heap] else []

theorem trigger_eq (f : Function) (term heap : IL.Expr) :
    f.trigger term heap = term :: f.guides heap := by
  unfold trigger guides
  split <;> rfl

theorem guides_applies (hP : ∀ {h}, Foreign env h → P h) (hheap : heap.AppliesOnly P) :
    ∀ e ∈ f.guides heap, e.AppliesOnly P := by
  unfold guides
  split
  · exact List.forall_mem_singleton.2 (op₁_applies hP .isGoodHeap hheap)
  · exact List.forall_mem_nil _

/-- The fact that a definition of a layer gives, for arguments under hypotheses and preconditions. -/
def definingFact (f : Function) (layer : Layer) (binders : List IL.Binder) (args hyps : List IL.Expr)
    (calls value : IL.Expr) : DefiningFact where
  binders
  name := Naming.layered f.name layer
  args
  guides := f.guides (.var Naming.heapParam)
  hyps := .conj hyps
  calls
  value

theorem definingFact_heads {layer : Layer} {binders : List IL.Binder}
    {args hyps pre : List IL.Expr} {calls value : IL.Expr} (hP : ∀ {h}, Foreign env h → P h)
    (hcan : P (Naming.layered f.name .canCall)) (hargs : ∀ a ∈ args, a.AppliesOnly P)
    (hhyps : ∀ a ∈ hyps, a.AppliesOnly P) (hpre : ∀ a ∈ pre, a.AppliesOnly P)
    (hcalls : calls.AppliesOnly P) (hvalue : value.AppliesOnly P) :
    ∀ h ∈ (f.definingFact layer binders args (hyps ++ [f.apply .canCall args] ++ pre)
      calls value).heads, P h := by
  refine DefiningFact.heads_iff.2 ⟨hargs, guides_applies hP (Expr.appliesOnly_var _),
    .conj (List.forall_mem_append.2 ⟨List.forall_mem_append.2 ⟨hhyps, ?_⟩, hpre⟩), hcalls, hvalue⟩
  exact List.forall_mem_singleton.2 (Expr.appliesOnly_app.2 ⟨hcan, hargs⟩)

/-- A definition is an equation for a term of the layer. What else it applies has a property that
the view admits. -/
theorem definition_defines {body : Source.Expr} {layer : Layer} {a : IL.Expr}
    (hv : Admits P env (f.factView (.var Naming.heapParam)
      (if layer = .unrolled then .unrolled else .default)))
    (hcan : P (Naming.layered f.name .canCall)) (h : (f.definition body layer).Returns env a) :
    ∃ d : DefiningFact, a = d.fact ∧ d.name = Naming.layered f.name layer ∧
      ∀ h ∈ d.heads, P h := by
  simp only [definition, ExprM.returns_bind, ExprM.returns_pure, trigger_eq] at h
  obtain ⟨hyps, hhyps, pre, hpre, value, hvalue, calls, hcalls, rfl⟩ := h
  exact ⟨f.definingFact layer _ (f.formals Naming.heapParam).args _ calls
      (Boxing.convert body.typ f.result.2 value), rfl, rfl,
    definingFact_heads hv.foreign hcan (f.args_applies _)
      (formalHyps_applies hv.foreign (Expr.appliesOnly_var _) hyps hhyps)
      (lowerTerms_applies hv f.requiresExprs pre hpre) (canCall_applies hv body calls hcalls)
      (Boxing.convert_applies hv.foreign _ _ (lowerExpr_applies body _ hv value hvalue))⟩

/-- So is the definition at a constructor, whose arguments hold the constructed value. -/
theorem caseDefinition_defines {n : Nat} {dt : Path} {p : Pattern} {body : Source.Expr}
    {a : IL.Expr} (hv : Admits P env (f.factView (.var Naming.heapParam) .default))
    (hcan : P (Naming.layered f.name .canCall))
    (h : (f.caseDefinition n dt p body).Returns env a) :
    ∃ d : DefiningFact, a = d.fact ∧ d.name = Naming.layered f.name .normal ∧
      ∀ h ∈ d.heads, P h := by
  simp only [caseDefinition, ExprM.returns_bind, ExprM.returns_pure, trigger_eq] at h
  obtain ⟨x, hx, this, hthis, wheres, hwheres, pre, hpre, value, hvalue, calls, hcalls, rfl⟩ := h
  replace hx : x.AppliesOnly P := lowerExpr_applies _ _ hv x hx
  have hheap : (IL.Expr.var Naming.heapParam).AppliesOnly P := Expr.appliesOnly_var _
  -- the arguments stand in the term, in its `canCall` and in the equation
  generalize hset : (f.formals Naming.heapParam).args.set _ x = args
  have hargs : ∀ a ∈ args, a.AppliesOnly P := by
    intro a ha
    rw [← hset] at ha
    obtain ha | rfl := List.mem_or_eq_of_mem_set ha
    · exact f.args_applies _ a ha
    · exact hx
  have hwheres : ∀ e ∈ wheres.filterMap id, e.AppliesOnly P := by
    intro e he
    obtain ⟨o, ho, he⟩ := List.mem_filterMap.1 he
    refine ExprM.Always.mapM (fun q _ => whereClause_applies hv.foreign q.1.2 ?_ hheap)
      wheres hwheres o ho e he
    split
    · exact hx
    · exact Expr.appliesOnly_var _
  exact ⟨f.definingFact .normal _ args _ calls (Boxing.convert _ f.result.2 value), rfl, rfl,
    definingFact_heads hv.foreign hcan hargs
      (List.forall_mem_cons.2 ⟨op₁_applies hv.foreign .isGoodHeap hheap, List.forall_mem_append.2
        ⟨receiverHyps_applies hv.foreign hheap this hthis, hwheres⟩⟩)
      (lowerTerms_applies hv _ pre hpre) (canCall_applies hv _ calls hcalls)
      (Boxing.convert_applies hv.foreign _ _ (lowerExpr_applies _ _ hv value hvalue))⟩

theorem postFact?_applies (hv : Admits P env (f.factView (.var Naming.heapParam) .default))
    (hcan : P (Naming.layered f.name .canCall)) (hnormal : P (Naming.layered f.name .normal)) :
    f.postFact?.Always env fun o => ∀ a ∈ o, a.AppliesOnly P := by
  have hheap : (IL.Expr.var Naming.heapParam).AppliesOnly P := Expr.appliesOnly_var _
  have hcall : (f.apply .normal (f.formals Naming.heapParam).args).AppliesOnly P :=
    Expr.appliesOnly_app.2 ⟨hnormal, f.args_applies _⟩
  refine (formalHyps_applies hv.foreign hheap).bind fun hyps hhyps =>
    (lowerTerms_applies hv _).bind fun pre hpre =>
      (whereClause_applies hv.foreign f.result.2 (Expr.appliesOnly_var _) hheap).bind
        fun typed htyped => (lowerTerms_applies hv _).bind fun posts hposts => ?_
  dsimp only
  split
  · exact .pure nofun
  · refine .pure (WhereClause.some_applies (.all (List.forall_mem_singleton.2 ?_) (.imp (.conj ?_)
      (.lets (List.forall_mem_singleton.2 hcall) (.conj (List.forall_mem_append.2
        ⟨fun a ha => htyped a (Option.mem_toList.1 ha), hposts⟩))))))
    · rw [trigger_eq]
      exact List.forall_mem_cons.2 ⟨hcall, guides_applies hv.foreign hheap⟩
    · exact List.forall_mem_append.2 ⟨List.forall_mem_append.2 ⟨hhyps, List.forall_mem_singleton.2
        (Expr.appliesOnly_app.2 ⟨hcan, f.args_applies _⟩)⟩, hpre⟩

theorem frameFact_applies (hv : Admits P env (f.factView (.var Naming.heapParamOld) .default))
    (hnormal : P (Naming.layered f.name .normal)) : f.frameFact.Always env (AppliesOnly P) := by
  have hvar (x : String) : (IL.Expr.var x).AppliesOnly P := Expr.appliesOnly_var x
  have hcall (heap : String) : (f.apply .normal (f.formals heap).args).AppliesOnly P :=
    Expr.appliesOnly_app.2 ⟨hnormal, f.args_applies _⟩
  have hread (heap : String) :
      (Prelude.read (.var heap) Heap.obj Heap.fld).AppliesOnly P :=
    op₃_applies hv.foreign .read (hvar _) (hvar _) (hvar _)
  have hgood (heap : String) : (Prelude.isGoodHeap (.var heap)).AppliesOnly P :=
    op₁_applies hv.foreign .isGoodHeap (hvar _)
  have hsucc := op₂_applies hv.foreign .heapSucc (hvar Naming.heapParamOld)
    (hvar Naming.heapParamNew)
  refine (frameContains_applies hv f.reads (hvar _)).bind fun contained hcontained =>
    (receiverHyps_applies hv.foreign (hvar _)).bind fun this hthis => .pure ?_
  refine .all (List.forall_mem_singleton.2 (List.forall_mem_cons.2
    ⟨hsucc, List.forall_mem_singleton.2 (hcall _)⟩)) (.imp (.conj ?_)
      (Expr.appliesOnly_eq.2 ⟨hcall _, hcall _⟩))
  refine List.forall_mem_append.2 ⟨List.forall_mem_append.2 ⟨List.forall_mem_cons.2
    ⟨hgood _, List.forall_mem_cons.2 ⟨hgood _, List.forall_mem_singleton.2 hsucc⟩⟩, hthis⟩,
    List.forall_mem_singleton.2 ?_⟩
  exact .all (.single (hread _)) (.imp (.conj₂ (Heap.nonNullAlloc_applies hv.foreign
    (hvar Naming.heapParamOld) (hvar Naming.objVar)) hcontained)
    (Expr.appliesOnly_eq.2 ⟨hread _, hread _⟩))

theorem layerFacts_apply (hnormal : P (Naming.layered f.name .normal))
    (hlimited : P (Naming.layered f.name .limited))
    (hunrolled : P (Naming.layered f.name .unrolled)) :
    ∀ a ∈ f.layerFacts, a.AppliesOnly P := by
  have hcall {layer : Layer} (h : P (Naming.layered f.name layer)) :
      (f.apply layer (f.formals Naming.heapParam).args).AppliesOnly P :=
    Expr.appliesOnly_app.2 ⟨h, f.args_applies _⟩
  refine List.forall_mem_cons.2 ⟨?_, List.forall_mem_singleton.2 ?_⟩
  · exact .all (.single (hcall hnormal)) (Expr.appliesOnly_eq.2 ⟨hcall hnormal, hcall hlimited⟩)
  · exact .all (.single (hcall hunrolled)) (Expr.appliesOnly_eq.2 ⟨hcall hunrolled, hcall hnormal⟩)

end Source.Function

end

/-! ## Which layers are applied -/

/-- Applied functions are foreign, or layers of functions of the program that a relation allows. -/
inductive Applied (env : Env) (L : Path → Layer → Prop) : String → Prop
  | foreign {h : String} (hh : Foreign env h) : Applied env L h
  | layer {g : Path} {G : Function} {l : Layer} (hg : env.context.function g = .ok G) (hl : L g l) :
    Applied env L (Naming.layered g l)

/-- The name of a layer of a function stands for nothing else in the program. -/
structure Env.NamesOnly (env : Env) (g : Path) (l : Layer) : Prop where
  foreign : ¬ Foreign env (Naming.layered g l)
  layer : ∀ {g' G' l'}, env.context.function g' = .ok G' →
    Naming.layered g' l' = Naming.layered g l → g' = g ∧ l' = l

theorem Applied.allowed {env : Env} {L : Path → Layer → Prop} {g : Path} {l : Layer}
    (h : Applied env L (Naming.layered g l)) (hname : env.NamesOnly g l) : L g l := by
  generalize hx : Naming.layered g l = x at h
  cases h with
  | foreign hh => exact absurd (hx ▸ hh) hname.foreign
  | layer hg hl =>
    obtain ⟨rfl, rfl⟩ := hname.layer hg hx.symm
    exact hl

/-- Calls into the component of a function are limited, others are normal. -/
def Env.LimitsWithin (env : Env) (f g : Path) (l : Layer) : Prop :=
  l = .canCall ∨ l = if env.context.calls.isRecursive g ∧ env.context.calls.inSameComponent f g
    then .limited else .normal

/-- All calls are normal. -/
def Layer.IsNormal (_ : Path) (l : Layer) : Prop := l = .canCall ∨ l = .normal

/-- A layer that a function of the program is declared with. -/
def Env.Declares (env : Env) (g : Path) (l : Layer) : Prop :=
  ∃ G s, env.context.function g = .ok G ∧ (l, s) ∈ G.layers (env.context.calls.isRecursive g)

section

variable {env : Env} {f : Function}

/-- A relation between functions and layers that has `canCall` and what calls in a view refer to
gives a property that the view admits. -/
theorem Applied.admits {L : Path → Layer → Prop} {v : View} {x y : String}
    (hcan : ∀ {g G}, env.context.function g = .ok G → L g .canCall)
    (hcall : ∀ {g G}, env.context.function g = .ok G → L g (env.callLayer v.layer g))
    (hheap : v.heap = .var x) (hold : v.oldHeap = .var y) : Admits (Applied env L) env v where
  foreign := .foreign
  canCall hg := .layer hg (hcan hg)
  call hg := .layer hg (hcall hg)
  heap := hheap ▸ Expr.appliesOnly_var x
  oldHeap := hold ▸ Expr.appliesOnly_var y

theorem Env.callLayer_limitsWithin {p : Path} (hmember : env.member = some p) (g : Path) :
    env.LimitsWithin p g (env.callLayer .default g) := by
  refine .inr ?_
  cases hrecursive : env.context.calls.isRecursive g <;> simp [callLayer, hmember, hrecursive]

theorem Env.callLayer_isNormal (g : Path) : Layer.IsNormal g (env.callLayer .unrolled g) := by
  refine .inr ?_
  cases hrecursive : env.context.calls.isRecursive g <;> simp [callLayer, hrecursive]

theorem Env.callLayer_declared {g : Path} {G : Function} (hg : env.context.function g = .ok G)
    (mode : LayerMode) : env.Declares g (env.callLayer mode g) := by
  refine ⟨G, G.result.2.sort, hg, ?_⟩
  cases hrecursive : env.context.calls.isRecursive g with
  | false => simp [callLayer, hrecursive, Function.layers]
  | true =>
    cases mode with
    | default =>
      simp only [callLayer, hrecursive, if_true]
      split <;> simp [Function.layers]
    | unrolled | limited => simp [callLayer, hrecursive, Function.layers]

theorem Env.declares_canCall {g : Path} {G : Function} (hg : env.context.function g = .ok G) :
    env.Declares g .canCall :=
  ⟨G, .bool, hg, by simp [Function.layers]⟩

theorem Env.declares_normal {g : Path} {G : Function} (hg : env.context.function g = .ok G) :
    env.Declares g .normal :=
  ⟨G, G.result.2.sort, hg, by simp [Function.layers]⟩

theorem Env.declares_of_recursive {g : Path} {G : Function} (hg : env.context.function g = .ok G)
    (hrecursive : env.context.calls.isRecursive g = true) (l : Layer) : env.Declares g l := by
  cases l with
  | canCall => exact declares_canCall hg
  | normal => exact declares_normal hg
  | limited | unrolled => exact ⟨G, G.result.2.sort, hg, by simp [Function.layers, hrecursive]⟩

/-! ## Stratification -/

namespace Source.Function

/-- A fact defines a term of the normal layer, and apart from that term calls into the component of
the function are limited in it. -/
def DefinesLimited (f : Function) (env : Env) (a : IL.Expr) : Prop :=
  ∃ d : DefiningFact, a = d.fact ∧ d.name = Naming.layered f.name .normal ∧
    (∀ h ∈ d.heads, Applied env (env.LimitsWithin f.name) h) ∧
    ∀ g, env.context.calls.isRecursive g = true →
      env.context.calls.inSameComponent f.name g = true → ∀ l, l = .normal ∨ l = .unrolled →
        env.NamesOnly g l → Naming.layered g l ∉ d.heads

/-- A fact defines a term of the unrolled layer, and apart from that term all calls are normal. -/
def DefinesUnrolled (f : Function) (env : Env) (a : IL.Expr) : Prop :=
  ∃ d : DefiningFact, a = d.fact ∧ d.name = Naming.layered f.name .unrolled ∧
    (∀ h ∈ d.heads, Applied env Layer.IsNormal h) ∧
    ∀ g, env.NamesOnly g .unrolled → Naming.layered g .unrolled ∉ d.heads

/-- The facts that the lowering of a function emits, for any body. -/
inductive Emits (f : Function) (env : Env) : IL.Expr → Prop
  | layers {a : IL.Expr} (hrecursive : env.context.calls.isRecursive f.name = true)
    (ha : a ∈ f.layerFacts) : Emits f env a
  | post {a : IL.Expr} (h : f.postFact?.Returns env (some a)) : Emits f env a
  | frame {a : IL.Expr} (h : f.frameFact.Returns env a) : Emits f env a
  | definition {body : Source.Expr} {a : IL.Expr} (h : (f.definition body .normal).Returns env a) :
    Emits f env a
  | unrolled {body : Source.Expr} {a : IL.Expr}
    (hrecursive : env.context.calls.isRecursive f.name = true)
    (h : (f.definition body .unrolled).Returns env a) : Emits f env a
  | atCtor {n : Nat} {dt : Path} {p : Pattern} {body : Source.Expr} {a : IL.Expr}
    (h : (f.caseDefinition n dt p body).Returns env a) : Emits f env a

theorem admits_limitsWithin (hmember : env.member = some f.name) (heap : String) :
    Admits (Applied env (env.LimitsWithin f.name)) env (f.factView (.var heap) .default) :=
  Applied.admits (fun _ => .inl rfl) (fun {g _} _ => Env.callLayer_limitsWithin hmember g) rfl rfl

theorem admits_isNormal (heap : String) :
    Admits (Applied env Layer.IsNormal) env (f.factView (.var heap) .unrolled) :=
  Applied.admits (fun _ => .inl rfl) (fun {g _} _ => Env.callLayer_isNormal g) rfl rfl

theorem admits_declares (heap : String) (mode : LayerMode) :
    Admits (Applied env env.Declares) env (f.factView (.var heap) mode) :=
  Applied.admits Env.declares_canCall (fun hg => Env.callLayer_declared hg mode) rfl rfl

/-- The normal layer of a function in its own component and the unrolled one are not allowed where
calls are limited. -/
theorem not_limitsWithin {g : Path} {l : Layer}
    (hrecursive : env.context.calls.isRecursive g = true)
    (hsame : env.context.calls.inSameComponent f.name g = true) (hl : l = .normal ∨ l = .unrolled) :
    ¬ env.LimitsWithin f.name g l := by
  rintro (rfl | hlimited)
  · simp at hl
  · rw [if_pos ⟨hrecursive, hsame⟩] at hlimited
    subst hlimited
    simp at hl

theorem definesLimited {d : DefiningFact} {a : IL.Expr} (ha : a = d.fact)
    (hname : d.name = Naming.layered f.name .normal)
    (hheads : ∀ h ∈ d.heads, Applied env (env.LimitsWithin f.name) h) : f.DefinesLimited env a :=
  ⟨d, ha, hname, hheads, fun _ hrecursive hsame _ hl hnames hmem =>
    not_limitsWithin hrecursive hsame hl ((hheads _ hmem).allowed hnames)⟩

theorem emits_applies (hf : env.context.function f.name = .ok f) {a : IL.Expr}
    (ha : f.Emits env a) : a.AppliesOnly (Applied env env.Declares) := by
  have hcan := Applied.layer hf (Env.declares_canCall hf)
  have hnormal := Applied.layer hf (Env.declares_normal hf)
  have hrec (h : env.context.calls.isRecursive f.name = true) (l : Layer) :
      Applied env env.Declares (Naming.layered f.name l) :=
    .layer hf (Env.declares_of_recursive hf h l)
  cases ha with
  | layers h ha => exact layerFacts_apply hnormal (hrec h _) (hrec h _) a ha
  | post h => exact postFact?_applies (f.admits_declares _ _) hcan hnormal _ h a rfl
  | frame h => exact frameFact_applies (f.admits_declares _ _) hnormal a h
  | definition h =>
    obtain ⟨d, rfl, hname, hheads⟩ := definition_defines (f.admits_declares _ _) hcan h
    exact DefiningFact.fact_applies (hname ▸ hnormal) hheads
  | unrolled hr h =>
    obtain ⟨d, rfl, hname, hheads⟩ := definition_defines (f.admits_declares _ _) hcan h
    exact DefiningFact.fact_applies (hname ▸ hrec hr _) hheads
  | atCtor h =>
    obtain ⟨d, rfl, hname, hheads⟩ := caseDefinition_defines (f.admits_declares _ _) hcan h
    exact DefiningFact.fact_applies (hname ▸ hnormal) hheads

/-- What an expression is lowered to, and the facts of its calls, apply declared layers only. -/
theorem expr_applies {v : View} {x y : String} (hheap : v.heap = .var x) (hold : v.oldHeap = .var y)
    {e : Source.Expr} {a : IL.Expr}
    (ha : (lowerExpr v e).Returns env a ∨ (canCall v e).Returns env a) :
    a.AppliesOnly (Applied env env.Declares) := by
  have hv : Admits (Applied env env.Declares) env v :=
    Applied.admits Env.declares_canCall (fun hg => Env.callLayer_declared hg v.layer) hheap hold
  obtain ha | ha := ha
  · exact lowerExpr_applies e v hv a ha
  · exact canCall_applies hv e a ha

/-- Definitions cannot feed themselves: apart from the term that a definition defines, calls into
the component of the function are limited in one of the normal layer, and normal in one of the
unrolled layer. Limited and unrolled layers are applied for functions that declare them, in the
facts of functions and wherever an expression is lowered. -/
theorem layers_stratified (hf : env.context.function f.name = .ok f)
    (hmember : env.member = some f.name) :
    (∀ body a, (f.definition body .normal).Returns env a → f.DefinesLimited env a) ∧
    (∀ n dt p body a, (f.caseDefinition n dt p body).Returns env a → f.DefinesLimited env a) ∧
    (∀ body a, (f.definition body .unrolled).Returns env a → f.DefinesUnrolled env a) ∧
    (∀ a, f.Emits env a → a.AppliesOnly (Applied env env.Declares)) ∧
    ∀ (v : View) (x y : String), v.heap = .var x → v.oldHeap = .var y → ∀ e a,
      (lowerExpr v e).Returns env a ∨ (canCall v e).Returns env a →
        a.AppliesOnly (Applied env env.Declares) := by
  have hcan : Applied env (env.LimitsWithin f.name) (Naming.layered f.name .canCall) :=
    .layer hf (.inl rfl)
  refine ⟨fun body a h => ?_, fun n dt p body a h => ?_, fun body a h => ?_,
    fun a ha => emits_applies hf ha, fun v x y hx hy e a ha => expr_applies hx hy ha⟩
  · obtain ⟨d, ha, hname, hheads⟩ := definition_defines (admits_limitsWithin hmember _) hcan h
    exact definesLimited ha hname hheads
  · obtain ⟨d, ha, hname, hheads⟩ := caseDefinition_defines (admits_limitsWithin hmember _) hcan h
    exact definesLimited ha hname hheads
  · obtain ⟨d, ha, hname, hheads⟩ :=
      definition_defines (admits_isNormal _) (.layer hf (.inl rfl)) h
    refine ⟨d, ha, hname, hheads, fun g hnames hmem => ?_⟩
    obtain h | h := (hheads _ hmem).allowed hnames
    · cases h
    · cases h

end Source.Function

end

/-! ## A function that calls itself -/

namespace SelfCall

/-- A function of a number that returns what it returns. -/
def function : Function :=
  { (default : Function) with
    name := ⟨"M", ["f"]⟩, params := [("n", .int)], result := ("r", .int) }

/-- The call of the function for its argument. -/
def body : Source.Expr := .call ⟨default, .int⟩ function.name none [.mkVar default "n" .int]

def context : Context :=
  { functions := [function], calls := .ofCalls [function.name] [(function.name, function.name)] }

def env : Env := { context, member := some function.name }

theorem eq_of_function {g : Path} {G : Function} (h : env.context.function g = .ok G) :
    g = function.name := by
  obtain ⟨hmem, hname⟩ := Context.mem_of_orBroken h
  obtain rfl : G = function := by simpa [env, context] using hmem
  simpa [eq_comm] using hname

/-- The name of the function stands for its normal layer only. -/
theorem namesOnly : env.NamesOnly function.name .normal where
  foreign h := by
    generalize hx : Naming.layered function.name .normal = x at h
    cases h with
    | op o =>
      have hnone : Standard.Op.ofName? (Naming.layered function.name .normal) = none := by
        decide +kernel
      rw [hx, Standard.Op.ofName?_name] at hnone
      cases hnone
    | ctor hd => cases hd
    | isCtor dt c =>
      have hhead : (Naming.isCtor dt c).toList.head? = some 'i' := by simp [Naming.isCtor]
      rw [← hx] at hhead
      exact absurd hhead (by decide +kernel)
    | destructor hd => cases hd
    | field hf => cases hf
  layer {g' G' l'} hg h := by
    obtain rfl := eq_of_function hg
    refine ⟨rfl, ?_⟩
    cases l' with
    | normal => rfl
    | limited | unrolled | canCall => exact absurd h (by decide)

/-- In its definition the function applies its limited layer, and not the one that is defined. -/
theorem layers_stratified_selfCall : ∃ d : DefiningFact,
    (function.definition body .normal).Returns env d.fact ∧
      "limited%M.f" ∈ d.heads ∧ "M.f" ∉ d.heads := by
  have hf : env.context.function function.name = .ok function := by cbv
  obtain ⟨a, ha, hmem⟩ : ∃ a, (function.definition body .normal).Returns env a ∧
      "limited%M.f" ∈ a.heads := ⟨_, by cbv, List.elem_iff.1 (by cbv)⟩
  obtain ⟨d, rfl, hname, -, hnot⟩ := (Source.Function.layers_stratified hf rfl).1 body a ha
  have hheads : d.fact.AppliesOnly fun h => h = d.name ∨ h ∈ d.heads :=
    d.fact_applies (.inl rfl) fun h hh => .inr hh
  refine ⟨d, ha, (hheads _ hmem).resolve_left fun h => ?_, ?_⟩
  · rw [hname] at h
    exact absurd h (by decide)
  · exact hnot function.name (by cbv) (by cbv) .normal (.inl rfl) namesOnly

end SelfCall
end ContractLowering
