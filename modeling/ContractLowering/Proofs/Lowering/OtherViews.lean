import ContractLowering.Proofs.Lowering.Copies
import ContractLowering.Proofs.Lowering.Related
import ContractLowering.Proofs.Source.WellTyped

/-!
# Expressions in two views

An expression that is lowered in two views is lowered to related expressions, if the views are
related and the relation takes no notice of the variables of the expression (`Related.self`). So an
expression that is lowered where a local keeps the heap is lowered to what it is lowered to where
the heap is current, with the local in place of the heap.
-/

namespace ContractLowering

open IL Source

/-! ## Variables of expressions -/

/-- The variables that are bound in an expression and those that are free in it have a property, and
patterns do not bind more variables than there are fields. -/
structure Source.Expr.Over (env : Env) (Q : String → Prop) (e : Source.Expr) : Prop where
  bound : ∃ Γ, e.Scoped Q (PatternFits env.context) Γ
  free : ∀ x ∈ e.freeVars, Q x

/-- Names that are not bound are free in the whole. -/
theorem forall_freeVars_of_without {Q : String → Prop} {bound xs : List String}
    (hbound : ∀ x ∈ bound, Q x) (h : ∀ x ∈ without bound xs, Q x) : ∀ x ∈ xs, Q x := by
  intro x hx
  by_cases hb : x ∈ bound
  · exact hbound x hb
  · exact h x (Expr.mem_without.2 ⟨hx, hb⟩)

/-! ### Well-typed expressions -/

section

variable {c : Context} {D : Discipline} {hasThis : Bool} {Γ : Typing} {e : Source.Expr}

/-- Variables of well-typed expressions are typed like their binders. -/
theorem Source.WellTyped.scoped (h : WellTyped c D hasThis Γ e) :
    e.Scoped D.binder (PatternFits c) Γ := by
  induction h with
  | bool | int | null | this => trivial
  | var htyp =>
    intro t ht
    exact Option.some.inj (htyp.symm.trans ht)
  | field _ _ _ _ ih | arrayLength _ _ _ ih | destruct _ _ _ _ _ _ ih | isCtor _ _ _ _ _ ih => exact ih
  | old _ _ ih | fresh _ _ _ ih | unary _ _ ih => exact ih
  | index _ _ _ iha ihb | binary _ _ _ iha ihb => exact ⟨iha, ihb⟩
  | slice _ _ _ _ _ _ ih ihlo ihhi =>
    exact ⟨ih, Expr.scoped?_iff.2 ihlo, Expr.scoped?_iff.2 ihhi⟩
  | update _ _ _ _ _ iha ihb ihc | ite _ _ _ _ _ iha ihb ihc => exact ⟨iha, ihb, ihc⟩
  | display _ _ _ ih | ctor _ _ _ _ _ ih => exact Expr.scopedList_iff.2 ih
  | mapDisplay _ _ _ _ ihk ihv =>
    exact Expr.scopedEntries_iff.2 fun p hp => ⟨ihk p hp, ihv p hp⟩
  | quant _ hbs _ _ _ _ _ ihr ihe _ =>
    exact ⟨fun b hb => (hbs b hb).1, Expr.scoped?_iff.2 ihr, ihe⟩
  | setComp _ hbs _ _ _ _ _ _ ihr iht =>
    exact ⟨fun b hb => (hbs b hb).1, ihr, Expr.scoped?_iff.2 iht⟩
  | mapComp hb _ _ _ _ _ ihr iht => exact ⟨hb.1, ihr, iht⟩
  | letIn hnames _ _ _ ihbs ih => exact ⟨hnames, Expr.scopedBindings_iff.2 ihbs, ih⟩
  | cases hd hvalue _ hpatterns hnames _ _ _ ihe iharms =>
    refine ⟨ihe, Expr.scopedArms_iff.2 fun p hp => ⟨?_, hnames p hp, iharms p hp⟩⟩
    intro path args d' k ht hd' hk
    obtain ⟨rfl, -⟩ := Typ.datatype.inj (hvalue.symm.trans ht)
    obtain rfl := Except.ok.inj (hd.symm.trans hd')
    obtain ⟨ctor, hctor, hfits⟩ := hpatterns p hp
    obtain rfl := Except.ok.inj (hctor.symm.trans hk)
    exact hfits.length_eq.le
  | call _ _ _ _ _ _ _ ihr ihes => exact ⟨Expr.scoped?_iff.2 ihr, Expr.scopedList_iff.2 ihes⟩

/-- A variable that is typed below binders and is none of them is typed above. -/
theorem Source.Typing.isSome_of_bind (bs : List Source.Binder) {x : String}
    (h : (Γ.bind bs x).isSome) (hx : x ∉ bs.map (·.1)) : (Γ x).isSome := by
  rwa [Typing.bind_of_notMem hx] at h

/-- Free variables of well-typed expressions are typed. -/
theorem Source.WellTyped.isSome_of_mem_freeVars (h : WellTyped c D hasThis Γ e) :
    ∀ x ∈ e.freeVars, (Γ x).isSome := by
  induction h with
  | bool | int | null | this => simp [Expr.freeVars]
  | var htyp => simp [Expr.freeVars, htyp]
  | field _ _ _ _ ih | arrayLength _ _ _ ih | destruct _ _ _ _ _ _ ih | isCtor _ _ _ _ _ ih => exact ih
  | old _ _ ih | fresh _ _ _ ih | unary _ _ ih => exact ih
  | index _ _ _ iha ihb | binary _ _ _ iha ihb =>
    exact List.forall_mem_append.2 ⟨iha, ihb⟩
  | slice _ _ _ _ _ _ ih ihlo ihhi =>
    simp only [Expr.freeVars, List.forall_mem_append]
    refine ⟨⟨ih, fun x hx => ?_⟩, fun x hx => ?_⟩
    · obtain ⟨a, ha, hx⟩ := Expr.mem_freeVars?.1 hx
      exact ihlo a ha x hx
    · obtain ⟨a, ha, hx⟩ := Expr.mem_freeVars?.1 hx
      exact ihhi a ha x hx
  | update _ _ _ _ _ iha ihb ihc | ite _ _ _ _ _ iha ihb ihc =>
    simp only [Expr.freeVars, List.forall_mem_append]
    exact ⟨⟨iha, ihb⟩, ihc⟩
  | display _ _ _ ih | ctor _ _ _ _ _ ih =>
    intro x hx
    obtain ⟨a, ha, hx⟩ := Expr.mem_freeVarsList.1 hx
    exact ih a ha x hx
  | mapDisplay _ _ _ _ ihk ihv =>
    intro x hx
    obtain ⟨p, hp, hx | hx⟩ := Expr.mem_freeVarsEntries.1 hx
    · exact ihk p hp x hx
    · exact ihv p hp x hx
  | quant _ _ _ _ _ _ _ ihr ihe ihts =>
    intro x hx
    obtain ⟨hx, hbound⟩ := Expr.mem_without.1 hx
    refine Typing.isSome_of_bind _ ?_ hbound
    simp only [List.mem_append] at hx
    rcases hx with (hx | hx) | hx
    · obtain ⟨a, ha, hx⟩ := Expr.mem_freeVars?.1 hx
      exact ihr a ha x hx
    · exact ihe x hx
    · obtain ⟨t, ht, a, ha, hx⟩ := Expr.mem_freeVarsTriggers.1 hx
      exact ihts t ht a ha x hx
  | setComp _ _ _ _ _ _ _ _ ihr iht =>
    intro x hx
    obtain ⟨hx, hbound⟩ := Expr.mem_without.1 hx
    refine Typing.isSome_of_bind _ ?_ hbound
    rcases List.mem_append.1 hx with hx | hx
    · exact ihr x hx
    · obtain ⟨a, ha, hx⟩ := Expr.mem_freeVars?.1 hx
      exact iht a ha x hx
  | @mapComp Γ i b r t key value _ _ _ _ _ _ ihr iht =>
    intro x hx
    obtain ⟨hx, hbound⟩ := Expr.mem_without.1 hx
    refine Typing.isSome_of_bind [b] ?_ hbound
    rcases List.mem_append.1 hx with hx | hx
    · exact ihr x hx
    · exact iht x hx
  | @letIn Γ i bs e _ _ _ _ ihbs ih =>
    simp only [Expr.freeVars, List.forall_mem_append]
    refine ⟨fun x hx => ?_, fun x hx => ?_⟩
    · obtain ⟨p, hp, hx⟩ := Expr.mem_freeVarsBindings.1 hx
      exact ihbs p hp x hx
    · obtain ⟨hx, hbound⟩ := Expr.mem_without.1 hx
      exact Typing.isSome_of_bind (bs.map fun p => (p.1, p.2.typ)) (ih x hx) (by simpa using hbound)
  | cases _ _ _ _ _ _ _ _ ihe iharms =>
    simp only [Expr.freeVars, List.forall_mem_append]
    refine ⟨ihe, fun x hx => ?_⟩
    obtain ⟨p, hp, hx, hbound⟩ := Expr.mem_freeVarsArms.1 hx
    exact Typing.isSome_of_bind _ (iharms p hp x hx) hbound
  | call _ _ _ _ _ _ _ ihr ihes =>
    simp only [Expr.freeVars, List.forall_mem_append]
    refine ⟨fun x hx => ?_, fun x hx => ?_⟩
    · obtain ⟨a, ha, hx⟩ := Expr.mem_freeVars?.1 hx
      exact ihr a ha x hx
    · obtain ⟨a, ha, hx⟩ := Expr.mem_freeVarsList.1 hx
      exact ihes a ha x hx

/-- The variables of a well-typed expression have what the variables in scope and the names that may
be bound have. -/
theorem Source.WellTyped.over {env : Env} {Q : String → Prop}
    (h : WellTyped env.context D hasThis Γ e) (hbound : ∀ x, D.binder x → Q x)
    (hfree : ∀ x, (Γ x).isSome → Q x) : e.Over env Q :=
  ⟨⟨Γ, .mono hbound e h.scoped⟩, fun x hx => hfree x (h.isSome_of_mem_freeVars x hx)⟩

end

/-! ## Related views -/

/-- A relation that takes no notice of variables with a property, be they bound or free, nor of
triggers. -/
structure Indifferent (R : IL.Expr → IL.Expr → Prop) (Q : String → Prop) : Prop where
  var : ∀ {x}, Q x → R (.var x) (.var x)
  lets : ∀ {us us' : List (String × IL.Expr)} {a a' : IL.Expr}, us.map (·.1) = us'.map (·.1) →
    (∀ u ∈ us, Q u.1) → List.Forall₂ (fun u u' => R u.2 u'.2) us us' → R a a' →
    R (.lets us a) (.lets us' a')
  quantify : ∀ {q : IL.Quantifier} {bs : List IL.Binder} {ts ts' : List Trigger} {a a' : IL.Expr},
    (∀ b ∈ bs, Q b.1) → R a a' → R (.quantify q bs ts a) (.quantify q bs ts' a')

section

variable {env : Env} {v v' : View} {R : IL.Expr → IL.Expr → Prop} {Q : String → Prop}

theorem Indifferent.binds (hQ : Indifferent R Q) {xs : List String} (hxs : ∀ x ∈ xs, Q x) :
    BindsAlike R R xs xs where
  lets hnames hnames' := by
    subst hnames
    exact hQ.lets hnames'.symm fun u hu => hxs _ (List.mem_map_of_mem hu)
  quantify {q bs bs' ts ts' a a'} hnames hnames' hsorts _ ha := by
    obtain rfl : bs' = bs := by
      rw [← List.zip_unzip bs, ← List.zip_unzip bs', List.unzip_eq_map, List.unzip_eq_map, hnames,
        hnames', hsorts]
    subst hnames
    exact hQ.quantify (fun b hb => hxs _ (List.mem_map_of_mem hb)) ha

theorem Indifferent.enters (hQ : Indifferent R Q) (hR : Congruence env v v' R)
    {bs : List Source.Binder} (hbs : ∀ b ∈ bs, Q b.1) : EntersWhere env v v' R R bs bs where
  types := rfl
  binds := hQ.binds fun x hx => by
    obtain ⟨b, hb, rfl⟩ := List.mem_map.1 hx
    exact hbs b hb
  congruence := hR
  vars := List.forall₂_same.2 fun b hb => ⟨rfl, hQ.var (hbs b hb)⟩

theorem option_rel_same {α : Type} {S : α → α → Prop} {o : Option α} (h : ∀ a ∈ o, S a a) :
    Option.Rel S o o := by
  cases o with
  | none => exact .none
  | some a => exact .some (h a rfl)

/-- An expression in two views, of whose variables the relation takes no notice. -/
theorem Related.self (hQ : Indifferent R Q) (e : Source.Expr) : ∀ {v v' : View},
    Congruence env v v' R → e.Over env Q → Related env v v' R e e := by
  induction e using Source.Expr.recData with
  | bool i b => exact fun hR _ => .bool hR rfl b
  | int i n => exact fun hR _ => .int hR rfl n
  | null i => exact fun hR _ => .null hR rfl
  | var i x => exact fun hR he => .var rfl (hQ.var (he.free x (by simp [Expr.freeVars])))
  | this i => exact fun hR _ => .this hR rfl
  | field i e f ih => exact fun hR he => .field hR rfl (ih hR ⟨he.bound, he.free⟩)
  | arrayLength i e ih => exact fun hR he => .arrayLength hR rfl (ih hR ⟨he.bound, he.free⟩)
  | destruct i e d c f ih => exact fun hR he => .destruct hR rfl (ih hR ⟨he.bound, he.free⟩)
  | isCtor i e d c ih => exact fun hR he => .isCtor hR rfl (ih hR ⟨he.bound, he.free⟩)
  | old i e ih => exact fun hR he => .old rfl (ih hR.old ⟨he.bound, he.free⟩)
  | fresh i e ih => exact fun hR he => .fresh hR rfl (ih hR ⟨he.bound, he.free⟩)
  | unary i op e ih => exact fun hR he => .unary hR rfl (ih hR ⟨he.bound, he.free⟩)
  | index i a b iha ihb =>
    rintro v v' hR ⟨⟨Γ, ha, hb⟩, hfree⟩
    simp only [Expr.freeVars, List.forall_mem_append] at hfree
    exact .index hR rfl (iha hR ⟨⟨Γ, ha⟩, hfree.1⟩) (ihb hR ⟨⟨Γ, hb⟩, hfree.2⟩)
  | binary i op a b iha ihb =>
    rintro v v' hR ⟨⟨Γ, ha, hb⟩, hfree⟩
    simp only [Expr.freeVars, List.forall_mem_append] at hfree
    exact .binary hR rfl (iha hR ⟨⟨Γ, ha⟩, hfree.1⟩) (ihb hR ⟨⟨Γ, hb⟩, hfree.2⟩)
  | update i a b c iha ihb ihc =>
    rintro v v' hR ⟨⟨Γ, ha, hb, hc⟩, hfree⟩
    simp only [Expr.freeVars, List.forall_mem_append] at hfree
    exact .update hR rfl (iha hR ⟨⟨Γ, ha⟩, hfree.1.1⟩) (ihb hR ⟨⟨Γ, hb⟩, hfree.1.2⟩)
      (ihc hR ⟨⟨Γ, hc⟩, hfree.2⟩)
  | ite i a b c iha ihb ihc =>
    rintro v v' hR ⟨⟨Γ, ha, hb, hc⟩, hfree⟩
    simp only [Expr.freeVars, List.forall_mem_append] at hfree
    exact .ite hR rfl (iha hR ⟨⟨Γ, ha⟩, hfree.1.1⟩) (ihb hR ⟨⟨Γ, hb⟩, hfree.1.2⟩)
      (ihc hR ⟨⟨Γ, hc⟩, hfree.2⟩)
  | slice i e lo hi ih ihlo ihhi =>
    rintro v v' hR ⟨⟨Γ, he, hlo, hhi⟩, hfree⟩
    simp only [Expr.freeVars, List.forall_mem_append] at hfree
    rw [Expr.scoped?_iff] at hlo hhi
    refine .slice hR rfl (ih hR ⟨⟨Γ, he⟩, hfree.1.1⟩) (option_rel_same fun a ha => ?_)
      (option_rel_same fun a ha => ?_)
    · exact ihlo a ha hR ⟨⟨Γ, hlo a ha⟩, fun x hx => hfree.1.2 x (Expr.mem_freeVars?.2 ⟨a, ha, hx⟩)⟩
    · exact ihhi a ha hR ⟨⟨Γ, hhi a ha⟩, fun x hx => hfree.2 x (Expr.mem_freeVars?.2 ⟨a, ha, hx⟩)⟩
  | display i kind es ih =>
    rintro v v' hR ⟨⟨Γ, hes⟩, hfree⟩
    rw [Expr.Scoped, Expr.scopedList_iff] at hes
    exact .display hR rfl (List.forall₂_same.2 fun a ha =>
      ih a ha hR ⟨⟨Γ, hes a ha⟩, fun x hx => hfree x (Expr.mem_freeVarsList.2 ⟨a, ha, hx⟩)⟩)
  | ctor i dt c es ih =>
    rintro v v' hR ⟨⟨Γ, hes⟩, hfree⟩
    rw [Expr.Scoped, Expr.scopedList_iff] at hes
    exact .ctor hR rfl (List.forall₂_same.2 fun a ha =>
      ih a ha hR ⟨⟨Γ, hes a ha⟩, fun x hx => hfree x (Expr.mem_freeVarsList.2 ⟨a, ha, hx⟩)⟩)
  | mapDisplay i kvs ih =>
    rintro v v' hR ⟨⟨Γ, hkvs⟩, hfree⟩
    rw [Expr.Scoped, Expr.scopedEntries_iff] at hkvs
    have hfree : ∀ p ∈ kvs, ∀ x, x ∈ p.1.freeVars ∨ x ∈ p.2.freeVars → Q x :=
      fun p hp x hx => hfree x (Expr.mem_freeVarsEntries.2 ⟨p, hp, hx⟩)
    exact .mapDisplay hR rfl (List.forall₂_same.2 fun p hp =>
      ⟨(ih p hp).1 hR ⟨⟨Γ, (hkvs p hp).1⟩, fun x hx => hfree p hp x (.inl hx)⟩,
        (ih p hp).2 hR ⟨⟨Γ, (hkvs p hp).2⟩, fun x hx => hfree p hp x (.inr hx)⟩⟩)
  | quant i q bs r b ts ind ihr ihb iht =>
    rintro v v' hR ⟨⟨Γ, hbs, hr, hb⟩, hfree⟩
    rw [Expr.scoped?_iff] at hr
    have hbound : ∀ x ∈ bs.map (·.1), Q x := List.forall_mem_map.2 hbs
    replace hfree := forall_freeVars_of_without hbound hfree
    simp only [List.forall_mem_append] at hfree
    have hrange : Option.Rel (Related env v v' R) r r := option_rel_same fun a ha =>
      ihr a ha hR ⟨⟨_, hr a ha⟩, fun x hx => hfree.1.1 x (Expr.mem_freeVars?.2 ⟨a, ha, hx⟩)⟩
    have hbody := ihb hR ⟨⟨_, hb⟩, hfree.1.2⟩
    have hscope := hQ.enters hR hbs
    -- triggers are not scoped, and do not matter
    refine ⟨rfl, fun {a a'} ha ha' => ?_⟩
    obtain ⟨w, hw, u, hu, x, hx, us, -, rfl⟩ := returns_lowerExpr_quant.1 ha
    obtain ⟨w', hw', u', hu', x', hx', us', -, rfl⟩ := returns_lowerExpr_quant.1 ha'
    refine hQ.quantify (fun c hc => ?_) (quantMatrix hR (Enters.wheres hscope hR.heap hw hw')
      (lowerExpr? hrange hu hu') (hbody.lower hx hx'))
    obtain ⟨d, hd, rfl⟩ := List.mem_map.1 hc
    exact hbs d hd
  | setComp i bs r t ihr iht =>
    rintro v v' hR ⟨⟨Γ, hbs, hr, ht⟩, hfree⟩
    rw [Expr.scoped?_iff] at ht
    have hbound : ∀ x ∈ bs.map (·.1), Q x := List.forall_mem_map.2 hbs
    replace hfree := forall_freeVars_of_without hbound hfree
    simp only [List.forall_mem_append] at hfree
    refine .setComp hR rfl (hQ.enters hR hbs) (fun b b' hb hb' => ?_) (ihr hR ⟨⟨_, hr⟩, hfree.1⟩)
      fun d hd d' hd' => ?_
    · rw [hb] at hb'
      rw [(List.cons.inj hb').1]
    · obtain rfl := Option.mem_unique hd hd'
      exact iht d hd hR ⟨⟨_, ht d hd⟩, fun x hx => hfree.2 x (Expr.mem_freeVars?.2 ⟨d, hd, hx⟩)⟩
  | mapComp i b r t ihr iht =>
    rintro v v' hR ⟨⟨Γ, hb, hr, ht⟩, hfree⟩
    replace hfree := forall_freeVars_of_without (List.forall_mem_singleton.2 hb) hfree
    simp only [List.forall_mem_append] at hfree
    exact .mapComp hR rfl (hQ.enters hR (List.forall_mem_singleton.2 hb))
      (ihr hR ⟨⟨_, hr⟩, hfree.1⟩) (iht hR ⟨⟨_, ht⟩, hfree.2⟩)
  | letIn i bs b ihbs ihb =>
    rintro v v' hR ⟨⟨Γ, hbs, hvalues, hb⟩, hfree⟩
    rw [Expr.scopedBindings_iff] at hvalues
    simp only [Expr.freeVars, List.forall_mem_append] at hfree
    have hbound : ∀ x ∈ bs.map (·.1), Q x := List.forall_mem_map.2 hbs
    refine .letIn rfl (hQ.binds hbound) (List.forall₂_same.2 fun p hp => ?_)
      (ihb hR ⟨⟨_, hb⟩, forall_freeVars_of_without hbound hfree.2⟩)
    exact ihbs p hp hR ⟨⟨Γ, hvalues p hp⟩,
      fun x hx => hfree.1 x (Expr.mem_freeVarsBindings.2 ⟨p, hp, hx⟩)⟩
  | cases i e arms ihe iharms =>
    rintro v v' hR ⟨⟨Γ, he, harms⟩, hfree⟩
    rw [Expr.scopedArms_iff] at harms
    simp only [Expr.freeVars, List.forall_mem_append] at hfree
    refine .cases hR rfl (ihe hR ⟨⟨Γ, he⟩, hfree.1⟩) fun htyp hd =>
      List.forall₂_same.2 fun p hp => ?_
    obtain ⟨hfits, hnames, hbody⟩ := harms p hp
    have hfree' : ∀ x ∈ p.2.freeVars, Q x :=
      forall_freeVars_of_without (List.forall_mem_map.2 hnames) fun x hx => hfree.2 x
        (Expr.mem_freeVarsArms.2 ⟨p, hp, Expr.mem_without.1 hx⟩)
    exact ⟨rfl, hfits htyp hd, R, (hQ.enters hR hnames).toEnters,
      iharms p hp hR ⟨⟨_, hbody⟩, hfree'⟩⟩
  | call i g r es ihr ihes =>
    rintro v v' hR ⟨⟨Γ, hr, hes⟩, hfree⟩
    rw [Expr.scoped?_iff] at hr
    rw [Expr.scopedList_iff] at hes
    simp only [Expr.freeVars, List.forall_mem_append] at hfree
    refine .call hR rfl (option_rel_same fun a ha => ?_) (List.forall₂_same.2 fun a ha => ?_)
    · exact ihr a ha hR ⟨⟨Γ, hr a ha⟩, fun x hx => hfree.1 x (Expr.mem_freeVars?.2 ⟨a, ha, hx⟩)⟩
    · exact ihes a ha hR ⟨⟨Γ, hes a ha⟩, fun x hx => hfree.2 x (Expr.mem_freeVarsList.2 ⟨a, ha, hx⟩)⟩

end

/-! ## The heap in a local -/

theorem IL.keep_of_forall_fixed {xs : List String} {f : String → String}
    (h : ∀ x ∈ xs, f x = x) : keep xs f = f := by
  funext x
  unfold keep
  split
  · exact (h x ‹_›).symm
  · rfl

theorem forall₂_named {R : IL.Expr → IL.Expr → Prop} {us us' : List (String × IL.Expr)}
    (hnames : us.map (·.1) = us'.map (·.1)) (h : List.Forall₂ (fun u u' => R u.2 u'.2) us us') :
    List.Forall₂ (fun u u' => u'.1 = u.1 ∧ R u.2 u'.2) us us' := by
  induction h with
  | nil => exact .nil
  | cons h _ ih =>
    obtain ⟨hname, hnames⟩ := List.cons.inj hnames
    exact .cons ⟨hname.symm, h⟩ (ih hnames)

/-- A renaming takes no notice of variables that it does not change. -/
theorem Indifferent.renames (P : String → Prop) (f : String → String) :
    Indifferent (Renames P f) fun x => P x ∧ f x = x where
  var h := .const h.2
  lets {us us' a a'} hnames hus hvalues ha := by
    have hfixed : ∀ x ∈ us.map (·.1), f x = x := List.forall_mem_map.2 fun u hu => (hus u hu).2
    exact .lets (forall₂_named hnames hvalues) (fun u hu => (hus u hu).1)
      (by rwa [keep_of_forall_fixed hfixed])
  quantify {q bs ts ts' a a'} hbs ha := by
    have hfixed : ∀ x ∈ bs.map (·.1), f x = x := List.forall_mem_map.2 fun b hb => (hbs b hb).2
    exact .quantify (fun b hb => (hbs b hb).1) (by rwa [keep_of_forall_fixed hfixed])

/-- The heap to the local that keeps it. -/
def keptIn (prev x : String) : String := if x = Prelude.heapName then prev else x

theorem keptIn_of_ne {prev x : String} (h : x ≠ Prelude.heapName) : keptIn prev x = x := if_neg h

theorem avoids_keptIn (prev : String) : Avoids (· ≠ prev) (keptIn prev) := by
  intro x
  by_cases h : x = Prelude.heapName
  · exact .inr (by simp [keptIn, h])
  · exact .inl (keptIn_of_ne h)

/-- The heap is the global one, and lowered code mentions neither it on another account nor the local
that may keep it. -/
structure HeapApart (env : Env) (v : View) (prev : String) : Prop where
  heap : v.heap = Prelude.heapVar
  reserved : ∀ {x}, Reserved env v.old x → x ≠ Prelude.heapName ∧ x ≠ prev

namespace HeapApart

variable {env : Env} {v : View} {prev : String} {M : Model} {old ρ : M.Valuation}

/-- To keep the heap in a local is to rename it. -/
theorem congruence (h : HeapApart env v prev) :
    Congruence env v { v with heap := .var prev } (Renames (· ≠ prev) (keptIn prev)) where
  toCompatible := .renames _ _
  layer := rfl
  const hx := .const (keptIn_of_ne (h.reserved (.const hx)).1)
  cls p := .const (keptIn_of_ne (h.reserved (.cls p)).1)
  field hf := .const (keptIn_of_ne (h.reserved (.field hf)).1)
  this := .const (keptIn_of_ne (h.reserved .this).1)
  generated hx := .const (keptIn_of_ne (h.reserved (.generated hx)).1)
  heap := by
    rw [h.heap]
    exact .var Prelude.heapName
  oldHeap :=
    .self (Expr.ren_of_fixed _ fun x hx => keptIn_of_ne (h.reserved (.oldHeap hx)).1)
      (Expr.boundIn_of_names _ fun x hx => (h.reserved (.oldHeap hx)).2)
  elements {x s ts ts' a a'} hx _ ha :=
    (Indifferent.renames _ _).quantify (List.forall_mem_singleton.2
      ⟨(h.reserved (.generated hx)).2, keptIn_of_ne (h.reserved (.generated hx)).1⟩) ha
  boxes ha := by
    have hbox := h.reserved (.generated .box)
    refine .lambda (List.forall_mem_singleton.2 hbox.2) ?_
    rwa [List.map_singleton, keep_of_forall_fixed (List.forall_mem_singleton.2 (keptIn_of_ne hbox.1))]

/-- An expression where a local keeps the heap has the value that it has where the heap is what the
local keeps. -/
theorem eval (h : HeapApart env v prev) {e : Source.Expr} {a a' : IL.Expr}
    (he : e.Over env fun x => x ≠ Prelude.heapName ∧ x ≠ prev)
    (ha : (lowerExpr v e).Returns env a)
    (ha' : (lowerExpr { v with heap := .var prev } e).Returns env a') :
    a'.eval old ρ = a.eval old (ρ ∘ keptIn prev) := by
  have hself := Related.self (.renames _ _) e h.congruence
    ⟨he.bound.imp fun Γ hΓ => .mono (fun x hx => ⟨hx.2, keptIn_of_ne hx.1⟩) e hΓ,
      fun x hx => ⟨(he.free x hx).2, keptIn_of_ne (he.free x hx).1⟩⟩
  exact (hself.lower ha ha').eval_eq (avoids_keptIn prev)

theorem holds_where (h : HeapApart env v prev) {bs : List Source.Binder} {w w' : IL.Expr}
    (hbs : ∀ b ∈ bs, b.1 ≠ Prelude.heapName) (hw : (bindersWhere v.heap bs).Returns env w)
    (hw' : (bindersWhere (.var prev) bs).Returns env w') :
    Holds old ρ w' ↔ Holds old (ρ ∘ keptIn prev) w := by
  refine Renames.holds_iff (h.congruence.bindersWhere h.congruence.heap
    (List.forall₂_same.2 fun b hb => ⟨rfl, ?_⟩) hw hw') (avoids_keptIn prev)
  exact .const (keptIn_of_ne (hbs b hb))

end HeapApart

end ContractLowering
