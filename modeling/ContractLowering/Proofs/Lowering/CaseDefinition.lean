import ContractLowering.Proofs.Lowering.Constructed
import ContractLowering.Proofs.Lowering.Formals
import ContractLowering.Proofs.Lowering.MergedBinders
import ContractLowering.Proofs.Lowering.SortedFacts

/-!
# Definitions at constructors

A recursive function whose body matches on a parameter has, beside its definition, one for each
case: there the parameter is replaced by the constructor applied to the variables of the case, which
are bound together with the other formals. It is well sorted, and it follows from the definition and
from the facts about the datatype (`caseDefinition_follows`), if no variable of the case has the
name of the matched parameter, and none that of another parameter with another sort.

Otherwise it does not follow: a variable of the case that has the name of the matched parameter is
replaced like that parameter (`caseDefinition_captures`).
-/

namespace ContractLowering

open IL Source

namespace Source

/-- No name is reserved that a variable gets where substitution renames it. -/
def Renameable (env : Env) (v : View) (x : String) : Prop :=
  ∀ ns : List Nat, ¬ Reserved env v (ns.foldl Naming.renamed x)

/-- Variables have names that may be changed. -/
def Discipline.renaming (env : Env) (v : View) : Discipline :=
  ⟨Renameable env v, fun _ _ => True⟩

theorem Renameable.renamed {env : Env} {v : View} {x : String} (h : Renameable env v x) (n : Nat) :
    Renameable env v (Naming.renamed x n) := fun ns => h (n :: ns)

theorem Renameable.not_reserved {env : Env} {v : View} {x : String} (h : Renameable env v x) :
    ¬ Reserved env v x := h []

namespace Function

/-- A function whose body matches on a parameter. It is resolved and its types fit: cases, body and
result have one sort, and variables of a case hold the fields of the constructor. -/
structure MatchTyped (env : Env) (f : Function) (body : Source.Expr) (n : Nat) (d : Datatype)
    (arms : List (Pattern × Source.Expr)) : Prop where
  function : env.context.function f.name = .ok f
  contract : f.ContractTyped env.context (.renaming env f.factsView)
  types : ∀ b ∈ f.params, b.2.Resolved env.context
  typed : WellTyped env.context (.renaming env f.factsView) f.owner.isSome f.typing body
  matched : f.matchedParam? body = some (n, d.path, arms)
  datatype : env.context.datatype d.path = .ok d
  result : body.typ.sort = f.result.2.sort
  arm : ∀ q ∈ arms, q.2.typ.sort = body.typ.sort ∧
    ∀ k, d.ctor q.1.ctor = .ok k → List.Forall₂ (fun b f => b.2.Holds f.2) q.1.binders k.fields
  names : ∀ k ∈ d.ctors, '$' ∉ (Naming.ctor d.path k.name).toList

/-- No variable of a case has the name of the matched parameter, and those that have the name of
another parameter, or of another variable, have its sort. -/
structure KeepsApart (f : Function) (n : Nat) (p : Pattern) : Prop where
  matched : ∀ q ∈ f.params[n]?, q.1 ∉ p.binders.map (·.1)
  sorts : Coherent (sortBinders (f.params ++ p.binders))

section

variable {Δ : Vocabulary} {env : Env} {f : Function} {body e : Source.Expr} {n : Nat} {d : Datatype}
  {arms : List (Pattern × Source.Expr)} {p : Pattern} {G : Sorts}

theorem matchedParam?_eq_some {dt : Path} :
    f.matchedParam? body = some (n, dt, arms) ↔ ∃ i j x ts, body = .cases i (.var j x) arms ∧
      j.typ = .datatype dt ts ∧ f.params.findIdx? (·.1 == x) = some n := by
  unfold matchedParam?
  split
  · rename_i i j x arms'
    split
    · rename_i dt' ts m htyp hfind
      simp only [Option.some.injEq, Prod.mk.injEq, Expr.cases.injEq, Expr.var.injEq]
      constructor
      · rintro ⟨rfl, rfl, rfl⟩
        exact ⟨i, j, x, ts, ⟨rfl, ⟨rfl, rfl⟩, rfl⟩, htyp, hfind⟩
      · rintro ⟨i', j', x', ts', ⟨rfl, ⟨rfl, rfl⟩, rfl⟩, htyp', hfind'⟩
        obtain ⟨rfl, -⟩ := Typ.datatype.inj (htyp.symm.trans htyp')
        exact ⟨Option.some.inj (hfind.symm.trans hfind'), rfl, rfl⟩
    · rename_i hnot
      refine iff_of_false (by simp) ?_
      rintro ⟨i', j', x', ts, heq, htyp, hfind⟩
      obtain ⟨rfl, hvar, rfl⟩ := Expr.cases.inj heq
      obtain ⟨rfl, rfl⟩ := Expr.var.inj hvar
      exact hnot _ _ _ htyp hfind
  · rename_i hnot
    refine iff_of_false (by simp) ?_
    rintro ⟨i, j, x, ts, rfl, -⟩
    exact hnot _ _ _ _ rfl

namespace MatchTyped

/-- The body is a match on a parameter, which has the datatype. -/
theorem shape (h : f.MatchTyped env body n d arms) : ∃ i j x ts, body = .cases i (.var j x) arms ∧
    j.typ = .datatype d.path ts ∧ f.params[n]? = some (x, j.typ) ∧ f.typing x = some j.typ := by
  obtain ⟨i, j, x, ts, rfl, htyp, hfind⟩ := matchedParam?_eq_some.1 h.matched
  obtain ⟨hn, hname, -⟩ := List.findIdx?_eq_some_iff_getElem.1 hfind
  have hx : f.typing x = some j.typ := by
    cases h.typed with
    | cases _ _ _ _ _ _ he =>
      cases he with
      | var hx => exact hx
  refine ⟨i, j, x, ts, rfl, htyp, ?_, hx⟩
  have hparam := Typing.bind_of_nodup (Γ := fun _ => none) h.contract.nodup (List.getElem_mem hn)
  have hname : f.params[n].1 = x := by simpa using hname
  rw [hname] at hparam
  rw [List.getElem?_eq_getElem hn]
  exact congrArg some (Prod.ext hname (Option.some.inj (hparam.symm.trans hx)))

/-- A case of the match. -/
theorem case (h : f.MatchTyped env body n d arms) (hp : (p, e) ∈ arms) :
    ∃ k, d.ctor p.ctor = .ok k ∧ List.Forall₂ (fun b f => f.2.Fits b.2) p.binders k.fields ∧
      (∀ b ∈ p.binders, Renameable env f.factsView b.1) ∧
      WellTyped env.context (.renaming env f.factsView) f.owner.isSome
        (f.typing.bind p.binders) e := by
  have htyped := h.typed
  obtain ⟨i, j, x, ts, rfl, htyp, -⟩ := h.shape
  cases htyped with
  | cases hd hvalue _ hpatterns hnames _ _ harms =>
    obtain ⟨rfl, -⟩ := Typ.datatype.inj (htyp.symm.trans hvalue)
    obtain rfl := Except.ok.inj (h.datatype.symm.trans hd)
    obtain ⟨k, hk, hfits⟩ := hpatterns _ hp
    exact ⟨k, hk, hfits, hnames _ hp, harms _ hp⟩

/-- Constructors of cases are constructors of the datatype. -/
theorem ctors (h : f.MatchTyped env body n d arms) :
    ∀ q ∈ arms, ∃ k ∈ d.ctors, k.name = q.1.ctor := by
  rintro ⟨p, e⟩ hp
  obtain ⟨k, hk, -⟩ := h.case hp
  exact ⟨k, Datatype.mem_of_ctor hk⟩

theorem reserved {b : IL.Binder}
    (hb : b ∈ (Naming.heapParam, Prelude.heapSort) :: f.thisBinder) :
    Reserved env f.factsView b.1 := by
  rcases List.mem_cons.1 hb with rfl | hb
  · exact .heap (by simp [factsView_heap, IL.Expr.names])
  · unfold thisBinder at hb
    split at hb
    · rename_i howner
      obtain rfl := List.mem_singleton.1 hb
      have hthis : Reserved env f.factsView (f.factsView.this.getD Naming.this) := .this
      obtain ⟨o, ho⟩ := Option.isSome_iff_exists.1 howner
      simpa [factsView, factView, ho] using hthis
    · cases hb

/-- The variables of facts and of a case have one sort where they have one name. -/
theorem coherent (h : f.MatchTyped env body n d arms) (hp : (p, e) ∈ arms)
    (hapart : f.KeepsApart n p) : Coherent (f.factBinders ++ sortBinders p.binders) := by
  obtain ⟨k, -, -, hnames, -⟩ := h.case hp
  have hsplit : f.factBinders ++ sortBinders p.binders =
      ((Naming.heapParam, Prelude.heapSort) :: f.thisBinder) ++
        sortBinders (f.params ++ p.binders) := by
    simp [factBinders, formals, sortBinders]
  rw [hsplit]
  refine .append ?_ hapart.sorts fun b hb c hc heq => ?_
  · have hfixed : Coherent [(Naming.heapParam, Prelude.heapSort),
        (Naming.this, Prelude.refSort)] := by
      unfold Coherent
      decide
    refine hfixed.mono fun b hb => ?_
    unfold thisBinder at hb
    split at hb
    · exact hb
    · exact List.mem_cons.2 (.inl (List.mem_singleton.1 hb))
  · obtain ⟨q, hq, rfl⟩ := List.mem_map.1 hc
    have hreserved : Reserved env f.factsView q.1 := heq ▸ reserved hb
    refine Renameable.not_reserved ?_ hreserved
    rcases List.mem_append.1 hq with hq | hq
    · exact h.contract.params q hq
    · exact hnames q hq

end MatchTyped

/-! ### The definition at a constructor -/

/-- What replaces the matched parameter in a case. -/
def caseSubst (q : Source.Binder) (dt : Path) (p : Pattern) : Subst :=
  .ofBindings none [(q.1, p.source dt q.2)]

/-- The definition at a constructor, in parts. -/
theorem returns_caseDefinition {q : Source.Binder} {k : Ctor} {a : IL.Expr}
    (hd : env.context.datatype d.path = .ok d) (hk : d.ctor p.ctor = .ok k)
    (hq : f.params[n]? = some q) : (f.caseDefinition n d.path p e).Returns env a ↔
    ∃ this, (f.receiverHyps (.var Naming.heapParam)).Returns env this ∧
    ∃ wheres, List.Forall₂ (fun b o => (whereClause b.1.2
        (if b.2 = n then p.built d.path k else .var b.1.1) (.var Naming.heapParam)).Returns env o)
      f.params.zipIdx wheres ∧
    ∃ pre, (lowerTerms f.factsView
      (f.requiresExprs.map (·.subst (caseSubst q d.path p)))).Returns env pre ∧
    ∃ value, (lowerExpr f.factsView (e.subst (caseSubst q d.path p))).Returns env value ∧
    ∃ calls, (collect .facts f.factsView (e.subst (caseSubst q d.path p))).Returns env calls ∧
      a = (f.definingFact .normal (merged f.factBinders (sortBinders p.binders) q.1)
        (f.argsWith n (p.built d.path k))
        ((Prelude.isGoodHeap (.var Naming.heapParam) :: (this ++ wheres.filterMap id)) ++
          [f.apply .canCall (f.argsWith n (p.built d.path k))] ++ pre) (.conj calls)
        (Boxing.convert (e.subst (caseSubst q d.path p)).typ f.result.2 value)).fact := by
  have hsource {b : IL.Expr} : (lowerExpr f.factsView (p.source d.path q.2)).Returns env b ↔
      b = p.built d.path k := p.returns_source hd hk
  simp only [caseDefinition, canCall, ExprM.returns_bind, ExprM.returns_pure, trigger_eq,
    ExprM.returns_mapM, hq, Option.getD_some, existsAndEq, and_true]
  constructor
  · rintro ⟨w, hw, this, hthis, wheres, hwheres, pre, hpre, value, hvalue, calls, hcalls, rfl⟩
    obtain rfl := hsource.1 hw
    exact ⟨this, hthis, wheres, hwheres, pre, hpre, value, hvalue, calls, hcalls, rfl⟩
  · rintro ⟨this, hthis, wheres, hwheres, pre, hpre, value, hvalue, calls, hcalls, rfl⟩
    exact ⟨_, hsource.2 rfl, this, hthis, wheres, hwheres, pre, hpre, value, hvalue, calls, hcalls,
      rfl⟩

/-! ### A case and what it is of -/

/-- A case of a match on a parameter, with the parameter and the constructor. -/
structure AtCase (env : Env) (f : Function) (body : Source.Expr) (n : Nat) (d : Datatype)
    (arms : List (Pattern × Source.Expr)) (p : Pattern) (e : Source.Expr) (k : Ctor)
    (q : Source.Binder) : Prop extends f.MatchTyped env body n d arms where
  selected : arms.find? (·.1.ctor == p.ctor) = some (p, e)
  apart : f.KeepsApart n p
  ctor : d.ctor p.ctor = .ok k
  param : f.params[n]? = some q

variable {k : Ctor} {q : Source.Binder} {M : Model} {old : M.Valuation} {r : Source.Expr}

/-- The scope of the formals, and that of the definition at a constructor, in which the matched
parameter is what the pattern matches. -/
def formalScopes (M : Model) (Δ : Vocabulary) (old : M.Valuation) (f : Function) (d : Datatype)
    (p : Pattern) (k : Ctor) (q : Source.Binder) : Scopes M :=
  .replacing Δ old (IsShared f.factBinders (sortBinders p.binders)) q.1 (p.built d.path k)

/-- The scope of the variables of a case below the formals, and that of the definition at the
constructor. -/
def caseScopes (M : Model) (Δ : Vocabulary) (old : M.Valuation) (d : Datatype) (p : Pattern)
    (k : Ctor) (q : Source.Binder) : Scopes M :=
  .replacing Δ old (fun _ => True) q.1 (p.built d.path k)

namespace AtCase

variable (h : f.AtCase env body n d arms p e k q)
include h

theorem mem : (p, e) ∈ arms := List.mem_of_find?_eq_some h.selected

theorem notMem : q.1 ∉ p.binders.map (·.1) := h.apart.matched q h.param

theorem mem_params : q ∈ f.params := List.mem_of_getElem? h.param

theorem binders : ∀ b ∈ p.binders, Renameable env f.factsView b.1 := by
  obtain ⟨-, -, -, hnames, -⟩ := h.case h.mem
  exact hnames

theorem fits : List.Forall₂ (fun b f => f.2.Fits b.2) p.binders k.fields := by
  obtain ⟨k', hk', hfits, -, -⟩ := h.case h.mem
  obtain rfl := Except.ok.inj (h.ctor.symm.trans hk')
  exact hfits

theorem armTyped : WellTyped env.context (.renaming env f.factsView) f.owner.isSome
    (f.typing.bind p.binders) e := by
  obtain ⟨-, -, -, -, htyped⟩ := h.case h.mem
  exact htyped

theorem find : arms.find? (·.1.ctor == k.name) = some (p, e) := by
  rw [(Datatype.mem_of_ctor h.ctor).2]
  exact h.selected

theorem holds : List.Forall₂ (fun b f => b.2.Holds f.2) p.binders k.fields :=
  (h.arm _ h.mem).2 k h.ctor

theorem mem_ctors : k ∈ d.ctors := (Datatype.mem_of_ctor h.ctor).1

theorem plain : '$' ∉ (Naming.ctor d.path p.ctor).toList := by
  rw [← (Datatype.mem_of_ctor h.ctor).2]
  exact h.names k h.mem_ctors

theorem param_sort : q.2.sort = Prelude.datatypeSort := by
  obtain ⟨i, j, x, ts, -, htyp, hparam, -⟩ := h.shape
  obtain rfl := Option.some.inj (hparam.symm.trans h.param)
  rw [htyp]
  rfl

theorem typing_param : f.typing q.1 = some q.2 :=
  Typing.bind_of_nodup h.contract.nodup h.mem_params

theorem shared {y : String} (hy : Reserved env f.factsView y) :
    IsShared f.factBinders (sortBinders p.binders) y := by
  intro hmem
  rw [sortBinders_names] at hmem
  obtain ⟨b, hb, rfl⟩ := List.mem_map.1 hmem
  exact absurd hy (h.binders b hb).not_reserved

/-- The facts of the calls in the body hold those of the case. -/
theorem exists_facts {as : List IL.Expr} (has : (collect .facts f.factsView body).Returns env as) :
    ∃ facts, (collect .facts f.factsView e).Returns env facts := by
  obtain ⟨i, j, x, ts, rfl, htyp, -⟩ := h.shape
  obtain ⟨-, facts, -, hfacts, -⟩ := returns_armFacts (e := .var j x) h.datatype htyp (s := .var x)
    (by simp [lowerExpr]) h.mem_ctors h.find has
  exact ⟨facts, hfacts⟩

theorem portable : Portable Δ env old (p.source d.path q.2) (p.built d.path k) :=
  p.portable h.datatype h.ctor h.plain

theorem replacing_fits {Q : String → Prop} (hQ : ∀ y, Reserved env f.factsView y → Q y) :
    (Scopes.replacing (M := M) Δ old Q q.1 (p.built d.path k)).Fits env f.factsView := by
  refine Scopes.replacing_fits (r := p.source d.path q.2) h.portable
    (h.contract.params q h.mem_params).not_reserved ?_ hQ ⟨_, rfl⟩ ⟨_, rfl⟩
  rw [Pattern.freeVars_source]
  exact List.forall_mem_map.2 fun b hb => (h.binders b hb).not_reserved

theorem formalScopes_fits : (formalScopes M Δ old f d p k q).Fits env f.factsView :=
  h.replacing_fits fun _ => h.shared

theorem caseScopes_fits : (caseScopes M Δ old d p k q).Fits env f.factsView :=
  h.replacing_fits fun _ _ => trivial

/-- What is said over the formals is said at the constructor with the parameter replaced. -/
theorem mirrors_formal (hr : WellTyped env.context (.renaming env f.factsView) f.owner.isSome
    f.typing r) : RelatedFacts env f.factsView (Mirrors Δ old (formalScopes M Δ old f d p k q)) r
      (r.subst (caseSubst q d.path p)) := by
  refine hr.mirrors_subst (fun _ n hx => Renameable.renamed hx n)
    (fun _ hx => Renameable.not_reserved hx) h.formalScopes_fits
    (Replaces.single h.portable h.typing_param fun y hy _ => ?_)
  rw [factBinders_names]
  refine List.mem_cons_of_mem _ (List.mem_append_right _ ?_)
  by_contra hmem
  have hsome := hr.isSome_of_mem_freeVars y hy
  rw [typing, Typing.bind_of_notMem hmem] at hsome
  cases hsome

/-- What is said in the case is said at the constructor with the parameter replaced. -/
theorem mirrors_case : RelatedFacts env f.factsView (Mirrors Δ old (caseScopes M Δ old d p k q)) e
      (e.subst (caseSubst q d.path p)) :=
  h.armTyped.mirrors_subst (fun _ n hx => Renameable.renamed hx n)
    (fun _ hx => Renameable.not_reserved hx) h.caseScopes_fits
    (Replaces.single h.portable ((Typing.bind_of_notMem h.notMem).trans h.typing_param)
      fun _ _ => trivial)

theorem mem_factBinders : (q.1, q.2.sort) ∈ f.factBinders :=
  List.mem_cons_of_mem _ (List.mem_append_right _ (List.mem_map.2 ⟨q, h.mem_params, rfl⟩))

theorem mirrors_built : Mirrors Δ old (formalScopes M Δ old f d p k q) (.var q.1)
    (p.built d.path k) := by
  have hportable : Portable Δ env old (p.source d.path q.2) (p.built d.path k) := h.portable
  exact .replaced hportable.inert fun _ => List.mem_map_of_mem (f := (·.1)) h.mem_factBinders

omit h in
theorem mirrors_kept {z : String} (hz : z ∈ f.factBinders.map (·.1)) (hne : z ≠ q.1) :
    Mirrors Δ old (formalScopes M Δ old f d p k q) (.var z) (.var z) :=
  .kept hne fun _ => hz

/-- A call for the formals, in any layer. -/
theorem mirrors_call (layer : Layer) : Mirrors Δ old (formalScopes M Δ old f d p k q)
    (f.apply layer (f.formals Naming.heapParam).args)
    (f.apply layer (f.argsWith n (p.built d.path k))) := by
  refine .app' (forall₂_argsWith h.contract.nodup h.param (fun z => mirrors_kept) ?_
    h.mirrors_built)
  intro z hz heq
  have hfixed : z ∈ ((Naming.heapParam, Prelude.heapSort) :: f.thisBinder).map (·.1) := hz
  obtain ⟨b, hb, rfl⟩ := List.mem_map.1 hfixed
  exact (h.contract.params q h.mem_params).not_reserved (heq ▸ MatchTyped.reserved hb)

/-- What triggers hold beside calls. -/
theorem mirrors_guides : ∀ g ∈ f.guides (.var Naming.heapParam),
    Mirrors Δ old (formalScopes M Δ old f d p k q) g g := by
  have hR : Congruence env f.factsView f.factsView
      (Mirrors Δ old (formalScopes M Δ old f d p k q)) := h.formalScopes_fits.congruence
  unfold guides
  split
  · exact List.forall_mem_singleton.2 (hR.app₁ hR.heap)
  · exact List.forall_mem_nil _

/-- What is assumed of the formals. -/
theorem mirrors_assumed {hyps this pre pre' : List IL.Expr} {wheres : List (Option IL.Expr)}
    (hhyps : (f.formalHyps (.var Naming.heapParam)).Returns env hyps)
    (hthis : (f.receiverHyps (.var Naming.heapParam)).Returns env this)
    (hwheres : List.Forall₂ (fun b o => (whereClause b.1.2
        (if b.2 = n then p.built d.path k else .var b.1.1) (.var Naming.heapParam)).Returns env o)
      f.params.zipIdx wheres)
    (hpre : (lowerTerms f.factsView f.requiresExprs).Returns env pre)
    (hpre' : (lowerTerms f.factsView
      (f.requiresExprs.map (·.subst (caseSubst q d.path p)))).Returns env pre') :
    Mirrors Δ old (formalScopes M Δ old f d p k q)
      (.conj (hyps ++ [f.apply .canCall (f.formals Naming.heapParam).args] ++ pre))
      (.conj ((Prelude.isGoodHeap (.var Naming.heapParam) :: (this ++ wheres.filterMap id)) ++
        [f.apply .canCall (f.argsWith n (p.built d.path k))] ++ pre')) := by
  have hR : Congruence env f.factsView f.factsView
      (Mirrors Δ old (formalScopes M Δ old f d p k q)) := h.formalScopes_fits.congruence
  refine hR.conj (List.rel_append (List.rel_append ?_ (.cons (h.mirrors_call _) .nil)) ?_)
  · exact forall₂_hyps hR h.contract.nodup h.param (fun z => mirrors_kept) h.mirrors_built hhyps
      hthis hwheres
  · refine Related.lowerTerms (forall₂_map_self fun r hr => ?_) hpre hpre'
    obtain ⟨c, hc, rfl⟩ := List.mem_map.1 hr
    exact (h.mirrors_formal (h.contract.requires c hc).2).toRelated

/-! #### Sorts -/

section

variable (hS : Signed Δ env)
include hS

theorem built_sorted : (p.built d.path k).sort? Δ (G.bind
    (merged f.factBinders (sortBinders p.binders) q.1)) = some Prelude.datatypeSort := by
  have hmerged := (h.coherent h.mem h.apart).merged q.1
  refine Expr.sort?_app (hS.ctor h.datatype h.ctor).1 (forall₂_of_getElem? ?_ ?_)
  · simp [Pattern.args, h.fits.length_eq]
  · intro m a s ha hs
    simp only [Pattern.args, List.getElem?_map, Option.map_eq_some_iff] at ha hs
    obtain ⟨⟨b, c⟩, hbc, rfl⟩ := ha
    obtain ⟨c', hc', rfl⟩ := hs
    obtain ⟨hb, hc⟩ := List.getElem?_zip_eq_some.1 hbc
    obtain rfl := Option.some.inj (hc.symm.trans hc')
    have hfits : c.2.Fits b.2 := (List.forall₂_iff_zip.1 h.fits).2 (List.mem_of_getElem? hbc)
    refine Boxing.sort?_convert hS.covers.operations (hfits.imp Eq.symm Ne.symm) ?_
    exact hmerged.sort (b := (b.1, b.2.sort)) (List.mem_append_right _
      (List.mem_map.2 ⟨b, List.mem_of_getElem? hb, rfl⟩))

/-- The sorts of names where the definition and the definition at the constructor are said. -/
theorem scopes_sorts (old : M.Valuation) (G : Sorts) :
    (formalScopes M Δ old f d p k q).sorts (G.bind f.factBinders)
        (G.bind (merged f.factBinders (sortBinders p.binders) q.1)) ∧
      (caseScopes M Δ old d p k q).sorts ((G.bind f.factBinders).bind (sortBinders p.binders))
        (G.bind (merged f.factBinders (sortBinders p.binders) q.1)) := by
  refine Scopes.sorts_merged (s := q.2.sort) (h.coherent h.mem h.apart) h.mem_factBinders ?_ ?_
  · rw [sortBinders_names]
    exact h.notMem
  · rw [h.built_sorted hS, h.param_sort]

variable {a b : IL.Expr}
  (hG : Scope Δ env f.factsView f.owner.isSome f.typing (G.bind f.factBinders))
include hG

/-- The definition at a constructor is Boolean. -/
theorem sorted (ha : (f.definition body .normal).Returns env a)
    (hb : (f.caseDefinition n d.path p e).Returns env b) : b.sort? Δ G = some .bool := by
  obtain ⟨hyps, hhyps, pre, hpre, -, -, calls, hcalls, -⟩ := returns_definition.1 ha
  obtain ⟨this, hthis, wheres, hwheres, pre', hpre', value', hvalue', calls', hcalls', rfl⟩ :=
    (returns_caseDefinition h.datatype h.ctor h.param).1 hb
  let old : (Standard.model Interval.nothing).Valuation := fun _ => .lambda
  obtain ⟨hformal, hcase⟩ := h.scopes_sorts hS old G
  have hreserved : ∀ x, Renameable env f.factsView x → ¬ Reserved env f.factsView x :=
    fun _ => Renameable.not_reserved
  have hmirrors : RelatedFacts env f.factsView (Mirrors Δ old (caseScopes _ Δ old d p k q)) e
    (e.subst (caseSubst q d.path p)) := h.mirrors_case
  have hinner : Scope Δ env f.factsView f.owner.isSome (f.typing.bind p.binders)
      ((G.bind f.factBinders).bind (sortBinders p.binders)) :=
    hG.bind hS fun b hb => (h.binders b hb).not_reserved
  have hterm : (f.apply .normal (f.argsWith n (p.built d.path k))).sort? Δ (G.bind
      (merged f.factBinders (sortBinders p.binders) q.1)) = some f.result.2.sort := by
    refine (h.mirrors_call .normal).transfers.sort hformal ?_
    exact apply_sorted (l := (.normal, f.result.2.sort)) hS h.function (by simp [layers])
      (args_sorted h.contract.nodup hG)
  refine DefiningFact.fact_sorted hterm (fun g hg => ?_) ?_ ?_ ?_
  · exact (h.mirrors_guides g hg).transfers.sort hformal (guides_sorted hS hG g hg)
  · exact (h.mirrors_assumed hhyps hthis hwheres hpre hpre').transfers.sort hformal
      (assumed_sorted hS h.function h.contract hreserved h.types hhyps hpre hG)
  · obtain ⟨facts, hfacts⟩ := h.exists_facts hcalls
    exact (Mirrors.compatible.conj (hmirrors.facts hfacts hcalls')).transfers.sort hcase
      (Expr.sort?_conj fun g hg => h.armTyped.facts_sorted hS hreserved hfacts g hg _ hinner)
  · obtain ⟨value, hvalue, hsorted⟩ := lowerExpr_sorted hS h.armTyped hreserved
    have hsort := (hmirrors.lower hvalue hvalue').transfers.sort hcase (hsorted _ hinner)
    have hsame : e.typ.sort = f.result.2.sort := (h.arm _ h.mem).1.trans h.result
    refine Boxing.sort?_convert hS.covers.operations (.inl ?_) ?_
    · rw [hmirrors.typ, hsame]
    · rw [hmirrors.typ]
      exact hsort

end

/-! #### Truth -/

section

variable {σ ρ ρ' : M.Valuation} (hM : Model.SatisfiesPrelude old σ) (hd : M.Constructs d)
  (hvars : ∀ b ∈ p.binders, M.carrier b.2.sort (ρ' b.1))
  (hparam : ρ q.1 = (p.built d.path k).eval old ρ')
  (hcase : (caseScopes M Δ old d p k q).values
    (Model.bind (p.binders.map fun b => (b.1, ρ' b.1)) ρ) ρ')
include hM hd hvars hparam hcase

/-- The body has the value of the case in which the parameter is replaced. -/
theorem eval_body {a a' : IL.Expr} (ha : (lowerExpr f.factsView body).Returns env a)
    (ha' : (lowerExpr f.factsView (e.subst (caseSubst q d.path p))).Returns env a') :
    a'.eval old ρ' = a.eval old ρ := by
  obtain ⟨i, j, x, ts, rfl, htyp, hq, -⟩ := h.shape
  obtain rfl := Option.some.inj (hq.symm.trans h.param)
  obtain ⟨s, hs, dt, hdt, d', hd', harms⟩ := returns_lowerExpr_cases.1 ha
  obtain rfl := hdt.unique (returns_matchedDatatype.2 ⟨ts, htyp⟩)
  obtain rfl : d' = d := Except.ok.inj (hd'.symm.trans h.datatype)
  obtain rfl : s = .var x := by simpa [lowerExpr] using hs
  have hvalue : (IL.Expr.var x).eval old ρ = M.built d' k (p.values k old ρ') :=
    hparam.trans (p.eval_built h.ctor)
  obtain ⟨bs, b, hbs, hb, heval⟩ := eval_lowerArms hd h.mem_ctors (p.fieldValues hM h.holds hvars)
    hvalue h.ctors h.find harms
  have hmirrors : RelatedFacts env f.factsView (Mirrors Δ old (caseScopes M Δ old d' p k _)) e
    (e.subst (caseSubst _ d'.path p)) := h.mirrors_case
  have hsame : e.typ.isBoxed = i.typ.isBoxed := Typ.isBoxed_congr (h.arm _ h.mem).1
  dsimp only at heval
  rw [heval, p.eval_caseBindings hM hd h.ctor h.holds hvars hvalue hbs,
    Boxing.convert_of_isBoxed_eq hsame]
  exact (hmirrors.lower hb ha').transfers.value hcase

/-- The calls that are made in the case, with the parameter replaced, are made in the body. -/
theorem holds_calls {as as' : List IL.Expr}
    (has : (collect .facts f.factsView body).Returns env as)
    (has' : (collect .facts f.factsView (e.subst (caseSubst q d.path p))).Returns env as')
    (hholds : ∀ a ∈ as, Holds old ρ a) : ∀ a ∈ as', Holds old ρ' a := by
  obtain ⟨i, j, x, ts, rfl, htyp, hq, -⟩ := h.shape
  obtain rfl := Option.some.inj (hq.symm.trans h.param)
  have hvalue : (IL.Expr.var x).eval old ρ = M.built d k (p.values k old ρ') :=
    hparam.trans (p.eval_built h.ctor)
  obtain ⟨bs, facts, hbs, hfacts, hall⟩ := holds_armFacts (e := .var j x) (s := .var x) hd
    h.mem_ctors (p.fieldValues hM h.holds hvars) h.datatype htyp (by simp [lowerExpr]) hvalue h.find
    has hholds
  rw [p.eval_caseBindings hM hd h.ctor h.holds hvars hvalue hbs] at hall
  have hmirrors : RelatedFacts env f.factsView (Mirrors Δ old (caseScopes M Δ old d p k _)) e
    (e.subst (caseSubst _ d.path p)) := h.mirrors_case
  intro a' ha'
  obtain ⟨a, ha, hrel⟩ := exists_of_forall₂ (hmirrors.facts hfacts has') ha'
  exact (hrel.holds_iff hcase).2 (hall a ha)

end

variable {a b : IL.Expr} {σ : M.Valuation}

/-- The definition at a constructor is true where the definition is. -/
theorem holds_caseDefinition (Δ : Vocabulary) (hM : Model.SatisfiesPrelude old σ)
    (hd : M.Constructs d) (ha : (f.definition body .normal).Returns env a)
    (hb : (f.caseDefinition n d.path p e).Returns env b) (hholds : Holds old σ a) :
    Holds old σ b := by
  obtain ⟨hyps, hhyps, pre, hpre, value, hvalue, calls, hcalls, rfl⟩ := returns_definition.1 ha
  obtain ⟨this, hthis, wheres, hwheres, pre', hpre', value', hvalue', calls', hcalls', rfl⟩ :=
    (returns_caseDefinition h.datatype h.ctor h.param).1 hb
  rw [DefiningFact.holds_fact] at hholds ⊢
  intro ρ' hρ' hassumed
  -- the variables of the case have values of their sorts, so the pattern matches some value
  have hcoherent := h.coherent h.mem h.apart
  have hvars : ∀ b ∈ p.binders, M.carrier b.2.sort (ρ' b.1) := fun b hb =>
    (hcoherent.merged q.1).carrier hρ' (b := (b.1, b.2.sort))
      (List.mem_append_right _ (List.mem_map.2 ⟨b, hb, rfl⟩))
  have hw : M.carrier q.2.sort ((p.built d.path k).eval old ρ') := by
    rw [h.param_sort, p.eval_built h.ctor]
    exact hd.carrier h.mem_ctors (p.fieldValues hM h.holds hvars)
  obtain ⟨ρ, hρ, hformal, hcase⟩ := Scopes.values_merged (Δ := Δ) hcoherent h.mem_factBinders
    (by rw [sortBinders_names]; exact h.notMem) hρ' hw
  have hparam : ρ q.1 = (p.built d.path k).eval old ρ' :=
    (hformal q.1 fun _ => List.mem_map_of_mem (f := (·.1)) h.mem_factBinders).trans (if_pos rfl)
  simp only [sortBinders, List.map_map, Function.comp_def] at hcase
  obtain ⟨hmade, hequal⟩ := hholds ρ hρ
    (((h.mirrors_assumed hhyps hthis hwheres hpre hpre').holds_iff hformal).1 hassumed)
  refine ⟨(holds_conj _).2 (h.holds_calls hM hd hvars hparam hcase hcalls hcalls'
    ((holds_conj _).1 hmade)), ?_⟩
  -- the case, the body and the result have one sort, so nothing is boxed
  have hresult : body.typ.isBoxed = f.result.2.isBoxed := Typ.isBoxed_congr h.result
  have hmirrors : RelatedFacts env f.factsView (Mirrors Δ old (caseScopes M Δ old d p k q)) e
    (e.subst (caseSubst q d.path p)) := h.mirrors_case
  have hboxed : (e.subst (caseSubst q d.path p)).typ.isBoxed = f.result.2.isBoxed := by
    rw [hmirrors.typ, Typ.isBoxed_congr (h.arm _ h.mem).1, hresult]
  calc (f.apply .normal (f.argsWith n (p.built d.path k))).eval old ρ'
      = (f.apply .normal (f.formals Naming.heapParam).args).eval old ρ :=
        (h.mirrors_call .normal).transfers.value hformal
    _ = (Boxing.convert body.typ f.result.2 value).eval old ρ := hequal
    _ = value.eval old ρ := by rw [Boxing.convert_of_isBoxed_eq hresult]
    _ = value'.eval old ρ' := (h.eval_body hM hd hvars hparam hcase hvalue hvalue').symm
    _ = (Boxing.convert _ f.result.2 value').eval old ρ' := by
        rw [Boxing.convert_of_isBoxed_eq hboxed]

end AtCase

/-- The definition at a constructor follows from the definition. It is well sorted, and it is true
wherever the definition and what the prelude and the datatype declare are, if the variables of the
case keep apart from the matched parameter, and agree in their sorts with what has their names. -/
theorem caseDefinition_follows (hS : Signed Δ env) (h : f.MatchTyped env body n d arms)
    (hp : arms.find? (·.1.ctor == p.ctor) = some (p, e)) (hapart : f.KeepsApart n p)
    {a b : IL.Expr} (ha : (f.definition body .normal).Returns env a)
    (hb : (f.caseDefinition n d.path p e).Returns env b) :
    (∀ G, Scope Δ env f.factsView f.owner.isSome f.typing (G.bind f.factBinders) →
      b.sort? Δ G = some .bool) ∧
    ∀ (M : Model) (σ : M.Valuation) (ds : List Decl), M.IsModelOf σ ds →
      (∀ x, Prelude.Declares x → x ∈ ds) → d.DeclaredIn ds → d.FieldsApart → .fact none a ∈ ds →
      ∀ old, Holds old σ b := by
  obtain ⟨k, hk, -⟩ := h.case (List.mem_of_find?_eq_some hp)
  obtain ⟨i, j, x, ts, -, -, hq, -⟩ := h.shape
  have hcase : f.AtCase env body n d arms p e k (x, j.typ) :=
    { h with selected := hp, apart := hapart, ctor := hk, param := hq }
  exact ⟨fun G hG => hcase.sorted hS hG ha hb, fun M σ ds hM hprelude hdeclared hfields hmem old =>
    hcase.holds_caseDefinition Δ (hM.satisfiesPrelude hprelude old)
      (hM.constructs hdeclared hfields) ha hb (hM.satisfies _ hmem old)⟩

end

end Function

end Source

/-! ## A sum over a list of numbers -/

namespace Sums

/-- Lists of numbers. -/
def datatype : Datatype where
  path := ⟨"M", ["List"]⟩
  span := default
  typParams := []
  ctors := [⟨"Nil", default, []⟩,
    ⟨"Cons", default, [("head", .int), ("tail", .datatype ⟨"M", ["List"]⟩ [])]⟩]

/-- The type of lists. -/
def list : Typ := .datatype datatype.path []

/-- A function of a list with a number for a result. -/
def function : Function :=
  { (default : Function) with
    name := ⟨"M", ["sum"]⟩, params := [("xs", list)], result := ("r", .int) }

/-- The case of a list that is not empty, with a name for its first number. -/
def cons (x : String) : Pattern := ⟨default, "Cons", [(x, .int), ("ys", list)]⟩

/-- The number added to the sum of the others. -/
def sum (x : String) : Source.Expr :=
  .binary ⟨default, .int⟩ .add (.mkVar default x .int)
    (.call ⟨default, .int⟩ function.name none [.mkVar default "ys" list])

def arms (x : String) : List (Pattern × Source.Expr) :=
  [(⟨default, "Nil", []⟩, .mkInt default 0), (cons x, sum x)]

def body (x : String) : Source.Expr := .cases ⟨default, .int⟩ (.mkVar default "xs" list) (arms x)

def context : Context :=
  { datatypes := [datatype], functions := [function],
    calls := .ofCalls [function.name] [(function.name, function.name)] }

def env : Env := { context, member := some function.name }

/-- The functions of the prelude, of lists, and the layers of the function. -/
def functions : List (String × List Srt × Srt) :=
  Prelude.functions.map (fun f => (f.1, f.2.1.map Srt.ofName, Srt.ofName f.2.2)) ++
    [("M.List.Nil", [], Prelude.datatypeSort),
     ("is%M.List.Nil", [Prelude.datatypeSort], .bool),
     ("M.List.Cons", [.int, Prelude.datatypeSort], Prelude.datatypeSort),
     ("is%M.List.Cons", [Prelude.datatypeSort], .bool),
     ("M.List.Cons/head", [Prelude.datatypeSort], .int),
     ("M.List.Cons/tail", [Prelude.datatypeSort], Prelude.datatypeSort),
     ("M.sum", [Prelude.datatypeSort], .int),
     ("canCall%M.sum", [Prelude.datatypeSort], .bool),
     ("limited%M.sum", [Prelude.datatypeSort], .int),
     ("unrolled%M.sum", [Prelude.datatypeSort], .int)]

def vocabulary : Vocabulary where
  func f := functions.lookup f
  global x := [("ctor%M.List.Nil", Prelude.ctorIdSort),
    ("ctor%M.List.Cons", Prelude.ctorIdSort)].lookup x

theorem eq_of_datatype {p : Path} {d : Datatype} (h : env.context.datatype p = .ok d) :
    p = datatype.path ∧ d = datatype := by
  obtain ⟨hmem, hpath⟩ := Context.mem_of_orBroken h
  obtain rfl : d = datatype := by simpa [env, context] using hmem
  exact ⟨by simpa [eq_comm] using hpath, rfl⟩

theorem eq_of_function {p : Path} {g : Function} (h : env.context.function p = .ok g) :
    p = function.name ∧ g = function := by
  obtain ⟨hmem, hname⟩ := Context.mem_of_orBroken h
  obtain rfl : g = function := by simpa [env, context] using hmem
  exact ⟨by simpa [eq_comm] using hname, rfl⟩

theorem signed : Signed vocabulary env where
  covers :=
    { prelude := fun _ hf => Prelude.lookup_functions _ hf
      fields := nofun
      ctors := by
        intro p d hd k hk e he
        obtain ⟨rfl, rfl⟩ := eq_of_datatype hd
        simp only [datatype, List.mem_cons, List.not_mem_nil, or_false] at hk
        rcases hk with rfl | rfl
        all_goals
          simp only [Ctor.decls, List.map_cons, List.map_nil, List.cons_append, List.nil_append,
            List.mem_cons, List.not_mem_nil, or_false] at he
          casesm* _ ∨ _ <;> subst e <;> show List.lookup _ _ = _ <;> decide +kernel
      functions := by
        intro p f hf l hl
        obtain ⟨rfl, rfl⟩ := eq_of_function hf
        have hrec : env.context.calls.isRecursive function.name = true := by cbv
        rw [hrec] at hl
        simp only [Source.Function.layers, if_true, List.mem_append, List.mem_cons,
          List.not_mem_nil, or_false] at hl
        rcases hl with (rfl | rfl) | rfl | rfl <;> show List.lookup _ _ = _ <;> decide +kernel }
  handle := nofun

/-- Reserved names do not begin like the variables. -/
theorem head_of_reserved {y : String} (h : Reserved env function.factsView y) :
    y.toList.head? ∉ [some 'x', some 'y', some 'z'] := by
  cases h with
  | const h =>
    simp only [preludeConstants, List.mem_cons, List.not_mem_nil, or_false] at h
    rcases h with rfl | rfl | rfl | rfl | rfl | rfl <;> decide
  | cls p => simp [Naming.cls]
  | field hf => cases hf
  | this => decide
  | heap h | oldHeap h =>
    obtain rfl : y = Naming.heapParam := by
      simpa [Source.Function.factsView, Source.Function.factView, Expr.names] using h
    decide
  | generated h =>
    rw [h.head]
    decide

/-- Renaming changes the end of a name. -/
theorem renameable {y : String} (hy : y.toList.head? ∈ [some 'x', some 'y', some 'z']) :
    Renameable env function.factsView y := by
  intro ns hr
  have hne : y.toList ≠ [] := by
    intro hnil
    simp [hnil] at hy
  have hhead : (ns.foldl Naming.renamed y).toList.head? = y.toList.head? := by
    clear hy hr
    induction ns generalizing y with
    | nil => rfl
    | cons n ns ih =>
      have hstart : (Naming.renamed y n).toList = y.toList ++ ("%" ++ toString n).toList := by
        simp [Naming.renamed]
      calc ((n :: ns).foldl Naming.renamed y).toList.head?
          = (Naming.renamed y n).toList.head? := ih (by simp [hstart, hne])
        _ = y.toList.head? := by rw [hstart, List.head?_append_of_ne_nil _ hne]
  exact head_of_reserved hr (hhead ▸ hy)

theorem typing_eq : function.typing = fun y => if y = "xs" then some list else none := by
  funext y
  by_cases hy : y = "xs" <;> simp [Source.Function.typing, function, Typing.bind, hy]

/-- The sorts of constants. -/
def sorts : Sorts := fun x =>
  if x.toList.take 6 = "class%".toList then some Prelude.classNameSort
  else [("null", Prelude.refSort), ("alloc", Prelude.fieldSort), ("Set.Empty", Prelude.setSort),
    ("MultiSet.Empty", Prelude.multisetSort), ("Seq.Empty", Prelude.seqSort),
    ("Map.Empty", Prelude.mapSort)].lookup x

theorem scope : Scope vocabulary env function.factsView function.owner.isSome function.typing
    (sorts.bind function.factBinders) where
  vars {y t} hy := by
    simp only [typing_eq, Option.ite_none_right_eq_some, Option.some.injEq] at hy
    obtain ⟨rfl, rfl⟩ := hy
    exact ⟨(renameable (by decide)).not_reserved, rfl⟩
  null := rfl
  alloc := rfl
  setEmpty := rfl
  multisetEmpty := rfl
  seqEmpty := rfl
  mapEmpty := rfl
  cls p := by
    have hxs : Naming.cls p ≠ "xs" := by
      intro h
      simpa [Naming.cls] using congrArg String.toList h
    have hheap : Naming.cls p ≠ Naming.heapParam := by
      intro h
      simpa [Naming.cls, Naming.heapParam] using congrArg String.toList h
    show sorts.bind [(Naming.heapParam, Prelude.heapSort), ("xs", Prelude.datatypeSort)] _ = _
    rw [Sorts.bind_of_notMem (by simp [hxs, hheap])]
    simp [sorts, Naming.cls]
  field := nofun
  this := nofun
  thisName h := absurd h.start (by decide)
  heap hG := hG Naming.heapParam (by decide)
  oldHeap hG := hG Naming.heapParam (by decide)
  heapNames y hy h := by
    obtain rfl : y = Naming.heapParam := by
      simpa [Source.Function.factsView, Source.Function.factView, Expr.names] using hy
    exact absurd h.start (by decide)

theorem matchTyped {x : String} (hx : Renameable env function.factsView x) (hne : x ≠ "ys") :
    function.MatchTyped env (body x) 0 datatype (arms x) where
  function := by cbv
  contract :=
    { nodup := by decide
      params := List.forall_mem_singleton.2 (renameable (by decide))
      requires := List.forall_mem_nil _
      reads := List.forall_mem_nil _
      decreases := fun _ hd => by cases hd }
  types := List.forall_mem_singleton.2 ⟨datatype, by cbv⟩
  typed := by
    have hvar {y : String} {t : Typ} {Γ : Typing} (hy : Γ y = some t) :
        WellTyped context (.renaming env function.factsView) false Γ (.mkVar default y t) := .var hy
    have hfunction : context.function function.name = .ok function := by cbv
    have hsum : WellTyped context (.renaming env function.factsView) false
        (function.typing.bind (cons x).binders) (sum x) := by
      refine .binary ⟨trivial, rfl, rfl⟩ (hvar ?_) (.call hfunction (by decide) (by simp)
        (.cons ⟨.inl rfl, trivial⟩ .nil) (.inl rfl) (by simp)
        (List.forall_mem_singleton.2 (hvar ?_)))
      · simp [Typing.bind, cons, hne]
      · simp [Typing.bind, cons]
    refine .cases (d := datatype) (by cbv) rfl (by simp [arms]) ?_ ?_ ?_ (hvar ?_) ?_
    · refine List.forall_mem_cons.2 ⟨⟨_, rfl, .nil⟩, List.forall_mem_singleton.2 ⟨_, rfl, ?_⟩⟩
      exact .cons (.inl rfl) (.cons (.inl rfl) .nil)
    · refine List.forall_mem_cons.2 ⟨List.forall_mem_nil _, List.forall_mem_singleton.2 (List.forall_mem_cons.2
        ⟨hx, List.forall_mem_singleton.2 ?_⟩)⟩
      exact renameable (by decide)
    · exact List.forall_mem_cons.2 ⟨.inl rfl, List.forall_mem_singleton.2 (.inl rfl)⟩
    · rw [typing_eq]
      rfl
    · exact List.forall_mem_cons.2 ⟨.int rfl, List.forall_mem_singleton.2 hsum⟩
  matched := rfl
  datatype := by cbv
  result := rfl
  arm := by
    refine List.forall_mem_cons.2 ⟨⟨rfl, fun k hk => ?_⟩, List.forall_mem_singleton.2
      ⟨rfl, fun k hk => ?_⟩⟩
    · obtain rfl := Except.ok.inj hk
      exact .nil
    · obtain rfl := Except.ok.inj hk
      exact .cons (fun _ => rfl) (.cons (fun _ => rfl) .nil)
  names := by decide

theorem keepsApart : function.KeepsApart 0 (cons "x") where
  matched := by
    intro q hq
    obtain rfl := Option.some.inj hq
    decide
  sorts := by
    unfold Coherent
    decide

end Sums

open Sums in
/-- The definition for lists that are not empty follows from the definition. -/
theorem caseDefinition_follows_sum : ∃ a b, (function.definition (body "x") .normal).Returns env a ∧
    (function.caseDefinition 0 datatype.path (cons "x") (sum "x")).Returns env b ∧
    b.sort? vocabulary sorts = some .bool ∧
    ∀ (M : Model) (σ : M.Valuation) (ds : List Decl), M.IsModelOf σ ds →
      (∀ x, Prelude.Declares x → x ∈ ds) → datatype.DeclaredIn ds → .fact none a ∈ ds →
      ∀ old, Holds old σ b := by
  obtain ⟨a, ha⟩ : ∃ a, (function.definition (body "x") .normal).Returns env a := ⟨_, by cbv⟩
  obtain ⟨b, hb⟩ : ∃ b,
      (function.caseDefinition 0 datatype.path (cons "x") (sum "x")).Returns env b := ⟨_, by cbv⟩
  have hx : Renameable env function.factsView "x" := renameable (by decide)
  have hapart : datatype.FieldsApart := by
    unfold Source.Datatype.FieldsApart
    decide
  obtain ⟨hsorted, hholds⟩ := Source.Function.caseDefinition_follows signed
    (matchTyped hx (by decide)) (by cbv) keepsApart ha hb
  exact ⟨a, b, ha, hb, hsorted sorts scope, fun M σ ds hM hprelude hdatatype =>
    hholds M σ ds hM hprelude hdatatype hapart⟩

open Sums in
/-- Where the first number has the name of the list, the number in the case is replaced as well. The
definition is well sorted, but for lists that are not empty it adds the list to a number. -/
theorem caseDefinition_captures : function.MatchTyped env (body "xs") 0 datatype (arms "xs") ∧
    ∃ a b, (function.definition (body "xs") .normal).Returns env a ∧
      a.sort? vocabulary sorts = some .bool ∧
      (function.caseDefinition 0 datatype.path (cons "xs") (sum "xs")).Returns env b ∧
      b.sort? vocabulary sorts = none := by
  have hxs : Renameable env function.factsView "xs" := renameable (by decide)
  refine ⟨matchTyped hxs (by decide), _, _, by cbv, ?_, by cbv, ?_⟩
  · decide +kernel
  · decide +kernel

end ContractLowering
