import ContractLowering.Proofs.Lowering.WellSorted
import ContractLowering.Proofs.Source.Arguments

/-!
# Lowering instances of generic code

An expression in an instance of generic code is lowered to an expression of the sort of its
annotation (`HasType.lowersSorted`): annotations that admit types of the instance fit one another
where these do.
-/

namespace ContractLowering

open IL Source

namespace Source

variable {t u τ : Typ}

/-- What has an annotation that a type admits may stand where that type is expected. -/
theorem Typ.Admits.fits_self (h : t.Admits u) : u.Fits t :=
  Typ.Admits.fits (.refl u) h (.inl rfl)

theorem Collection.Displays.admits {kind : Collection} {elem elem' : Typ} (h : t.Admits τ)
    (ht : kind.Displays t elem) (hτ : kind.Displays τ elem') : elem.Admits elem' := by
  cases kind <;>
  · obtain rfl := ht
    obtain rfl := hτ
    obtain ⟨elem'', heq, hadm⟩ := h
    cases heq
    exact hadm

theorem Typ.Admits.map_fst {key value key' value' : Typ}
    (h : (Typ.map key value).Admits (.map key' value')) :
    key.Admits key' ∧ value.Admits value' := by
  obtain ⟨k, v, heq, hk, hv⟩ := h
  cases heq
  exact ⟨hk, hv⟩

theorem Typ.Admits.set_elem {elem elem' : Typ} (h : (Typ.set elem).Admits (.set elem')) :
    elem.Admits elem' := by
  obtain ⟨e, heq, he⟩ := h
  cases heq
  exact he

theorem forall_mem_map_fst {P : Expr → Prop} {o : Option (Expr × Typ)} (h : ∀ p ∈ o, P p.1) :
    ∀ x ∈ o.map (·.1), P x := by
  intro x hx
  obtain ⟨p, hp, rfl⟩ := Option.map_eq_some_iff.1 hx
  exact h p hp

/-- Arguments fit the parameters. -/
theorem Passes.fits {ps : List (Expr × Typ)} {params : List Binder}
    (h : Passes (argTypes ps) params) :
    Discipline.free.Passes (ps.map (·.1)) params := by
  obtain ⟨σ, h⟩ := h
  exact List.forall₂_map_left_iff.2 ((List.forall₂_map_left_iff.1 h).imp
    fun p b hp => ⟨hp.1.fits_self, trivial⟩)

end Source

section

variable {Δ : Vocabulary} {env : Env} {v : View} {hasThis : Bool} {S : Conventions}
  {this : Option Typ} {Λ : Locals} {e : Source.Expr} {τ : Typ}

/-- Code that keeps to conventions may be lowered in an environment. -/
structure Source.Conventions.Serves (S : Conventions) (this : Option Typ) (env : Env) (v : View)
    (hasThis : Bool) : Prop where
  context : S.context = env.context
  apart : ∀ x, S.mayBind x → ¬ Reserved env v x
  this : this.isSome → hasThis = true
  implicit : S.implicit = true → hasThis = true

theorem Source.Conventions.Serves.old (h : S.Serves this env v hasThis) :
    S.Serves this env v.old hasThis :=
  ⟨h.context, fun x hx hr => h.apart x hx hr.of_old, h.this, h.implicit⟩

/-- An expression in an instance of generic code is lowered to an expression of the sort of its
annotation. -/
theorem Source.HasType.lowersSorted (hS : Signed Δ env) (h : HasType S this Λ e τ)
    (hserves : S.Serves this env v hasThis) : LowersSorted Δ env v hasThis Λ.annotated e := by
  have hΔ := hS.covers.operations
  have hbind {v : View} {bs : List Source.Binder} {τs : List Typ}
      (hserves : S.Serves this env v hasThis) (hbinds : Binds S bs τs)
      (hbs : ∀ b ∈ bs, b.2.Resolved S.context) :
      ∀ b ∈ bs, ¬ Reserved env v b.1 ∧ b.2.Resolved env.context :=
    fun b hb => ⟨hserves.apart _ (hbinds.name b hb), hserves.context ▸ hbs b hb⟩
  induction h generalizing v with
  | bool htyp hadm => exact .bool htyp
  | int htyp hadm => exact .int htyp
  | null htyp hadm => exact .null htyp
  | var ht hsort hann hown hτ hadm => exact .var ht hsort
  | this hthis htyp hcls hadm => exact .this (hserves.this (by simp [hthis])) htyp
  | field hfield hobj htyp hadm he ih =>
    exact .field hS (hserves.context ▸ hfield) hobj htyp (ih hserves)
  | index htyp hactual hkey hadm ha hb iha ihb =>
    exact .index hΔ htyp (iha hserves) (ihb hserves)
  | slice hcoll htyp hint hadm he hlo hhi ih ihlo ihhi =>
    refine .slice hΔ hcoll htyp (fun x hx => ?_) (ih hserves)
      (forall_mem_map_fst fun p hp => ihlo p hp hserves)
      (forall_mem_map_fst fun p hp => ihhi p hp hserves)
    rcases hx with hx | hx
    · exact forall_mem_map_fst (P := (·.typ.sort = .int)) (fun p hp => hint p (.inl hp)) x hx
    · exact forall_mem_map_fst (P := (·.typ.sort = .int)) (fun p hp => hint p (.inr hp)) x hx
  | update hcoll hactual hkey htyp hadm he hk hv ihe ihk ihv =>
    exact .update hΔ hcoll htyp (ihe hserves) (ihk hserves) (ihv hserves)
  | arrayLength harray htyp hadm he ih => exact .arrayLength hΔ harray htyp (ih hserves)
  | display hkind hactual hfit hadm hps ih =>
    refine .display hΔ hkind (List.forall_mem_map.2 fun p hp => ?_)
      (List.forall_mem_map.2 fun p hp => ih p hp hserves)
    exact (hps p hp).admits.fits (hkind.admits hadm hactual) (hfit p hp)
  | mapDisplay htyp hfit hadm hkeys hvalues ihk ihv =>
    rw [htyp] at hadm
    refine .mapDisplay hΔ htyp (List.forall_mem_map.2 fun p hp => ?_)
      (List.forall_mem_map.2 fun p hp => ihk p hp hserves)
      (List.forall_mem_map.2 fun p hp => ihv p hp hserves)
    exact ⟨(hkeys p hp).admits.fits hadm.map_fst.1 (hfit p hp).1,
      (hvalues p hp).admits.fits hadm.map_fst.2 (hfit p hp).2⟩
  | ctor hd hctor htyp hargs hadm hps ih =>
    refine .ctor (D := .free) hS (hserves.context ▸ hd) hctor htyp ?_
      (List.forall_mem_map.2 fun p hp => ih p hp hserves)
    refine List.forall₂_map_left_iff.2 (forall₂_imp_of_mem hargs fun p hp f hfit => ⟨?_, trivial⟩)
    exact (hps p hp).admits.fits (.refl _) hfit
  | destruct hd hctor hfield hvalue htyp hadm he ih =>
    exact .destruct hS (hserves.context ▸ hd) hctor hfield hvalue htyp (ih hserves)
  | isCtor hd hctor hvalue htyp hadm he ih =>
    exact .isCtor hS (hserves.context ▸ hd) hctor hvalue htyp (ih hserves)
  | old htyp hkeep hadm he ih => exact .old htyp (ih hserves.old)
  | fresh hframe htyp hadm he ih => exact .fresh hS hframe htyp (ih hserves)
  | unary htyp hadm he ih => exact .unary hΔ htyp (ih hserves)
  | binary htyp hactual hadm ha hb iha ihb => exact .binary hΔ htyp (iha hserves) (ihb hserves)
  | @quant Λ i q bs τs r e ts ind τ τe hbinds hbs htyp hbool hadm hr he hts ihr ihe ihts =>
    refine .quant hS hbinds.nodup (hbind hserves hbinds hbs) htyp (fun x hx => ?_)
      (forall_mem_map_fst fun p hp => ihr p hp hserves) (ihe hserves)
      (List.forall_mem_map.2 fun t ht => List.forall_mem_map.2 fun p hp => ihts t ht p hp hserves)
    rcases hx with hx | rfl
    · exact forall_mem_map_fst (P := (·.typ.sort = .bool)) hbool.2 x hx
    · exact hbool.1
  | setComp hbinds hbs htyp hbool hterm helem hadm hr ht ihr iht =>
    rw [htyp] at hadm
    refine .setComp hS hbinds.nodup (hbind hserves hbinds hbs) htyp hbool (fun hnone => ?_)
      (forall_mem_map_fst fun p hp => (ht p hp).admits.fits hadm.set_elem (helem p hp))
      (ihr hserves) (forall_mem_map_fst fun p hp => iht p hp hserves)
    obtain ⟨b, -, hb, -⟩ := hterm (Option.map_eq_none_iff.1 hnone)
    exact ⟨b, hb⟩
  | mapComp hbinds hb htyp hbool hvalue hadm hr ht ihr iht =>
    rw [htyp] at hadm
    exact .mapComp hS ⟨hserves.apart _ (hbinds.name _ List.mem_cons_self), hserves.context ▸ hb⟩
      htyp hbool (ht.admits.fits hadm.map_fst.2 hvalue) (ihr hserves) (iht hserves)
  | letIn hnodup hnames hkeep htyp hbody hadm hbs he ihbs ihe =>
    refine .letIn hS (List.forall_mem_map.2 fun b hb => hserves.apart _ (hnames b hb)) htyp
      (List.forall_mem_map.2 fun b hb => ihbs b hb hserves) ?_
    simpa [Function.comp_def, Locals.bind] using ihe hserves
  | ite hbool hbranches hfit hadm he ha hb ihe iha ihb =>
    exact .ite hΔ hbool ⟨ha.admits.fits hadm hfit.1, hb.admits.fits hadm hfit.2⟩ (ihe hserves)
      (iha hserves) (ihb hserves)
  | cases hd hvalue hne hpatterns hbinds hfit hadm he harms ihe iharms =>
    exact .cases hS (hserves.context ▸ hd) hvalue (by simpa using hne)
      (List.forall_mem_map.2 hpatterns)
      (List.forall_mem_map.2 fun p hp b hb => hserves.apart _ ((hbinds p hp).name b hb))
      (List.forall_mem_map.2 fun p hp => (harms p hp).admits.fits hadm (hfit p hp)) (ihe hserves)
      (List.forall_mem_map.2 fun p hp => iharms p hp hserves)
  | call hf hthis hrecv hargs haccepts htyp hadm hr hps ihr ihps =>
    exact .call hS (hserves.context ▸ hf)
      (fun howner hnone => hserves.implicit (hthis howner (Option.map_eq_none_iff.1 hnone)))
      (forall_mem_map_fst hrecv) hargs.fits htyp
      (forall_mem_map_fst fun p hp => ihr p hp hserves)
      (List.forall_mem_map.2 fun p hp => ihps p hp hserves)

/-- The receiver and the arguments of a call have the sorts that the callee asks for, so that the
call may be made is Boolean. -/
theorem Source.HasType.canCall_sorted (hS : Signed Δ env) {i : Info} {f : Path}
    {recv : Option Source.Expr} {args : List Source.Expr}
    (h : HasType S this Λ (.call i f recv args) τ) (hserves : S.Serves this env v hasThis) :
    ∃ values, (lowerCallArgs v f recv args).Returns env values ∧
      SortedAs Δ env v hasThis Λ.annotated (.app (Naming.layered f .canCall) values) .bool := by
  cases h with
  | @call _ _ _ r ps callee _ hf hthis hrecv hargs haccepts htyp hadm hr hps =>
    have hf := hserves.context ▸ hf
    obtain ⟨first, hfirst, hfirsts⟩ := receiverArgs_sorted callee.owner
      (forall_mem_map_fst fun p hp => (hr p hp).lowersSorted hS hserves)
      (forall_mem_map_fst (P := (·.typ.sort = Prelude.refSort)) hrecv)
      fun howner hnone => hserves.implicit (hthis howner (Option.map_eq_none_iff.1 hnone))
    obtain ⟨rest, hrest, hrests⟩ := lowerArgs_sorted hS.covers.operations
      (List.forall_mem_map.2 fun p hp => (hps p hp).lowersSorted hS hserves) hargs.fits
    refine ⟨_, returns_lowerCallArgs.2 ⟨callee, hf, first, hfirst, rest, hrest, rfl⟩, ?_⟩
    intro G hG
    have hdecl := hS.covers.functions f callee hf (.canCall, .bool) (by simp [Function.layers])
    exact Expr.sort?_app hdecl (callArgs_sorted hfirsts hrests hG)

end

end ContractLowering
