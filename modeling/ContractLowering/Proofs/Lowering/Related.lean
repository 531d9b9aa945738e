import ContractLowering.Proofs.Lowering.Congruence
import ContractLowering.Proofs.Lowering.ExprReturns

/-!
# Related expressions are lowered to related ones

Whether names are changed, copied or replaced by terms, the lowering of an expression follows its
shape. `Related env v v' R e e'` says that two expressions are lowered to related ones. There is one
lemma per construct: if the parts are related, so are the expressions, provided that the relation
is a congruence. What a relation has to say of bound names is `BindsAlike`.
-/

namespace ContractLowering

open IL Source

/-! ## Binders -/

/-- Triggers of two quantifiers: they are related, or chosen in the same way. -/
inductive TriggersAlike (R : IL.Expr → IL.Expr → Prop) (xs ys : List String) (a a' : IL.Expr) :
    List Trigger → List Trigger → Prop
  | given {ts ts' : List Trigger} (h : List.Forall₂ (List.Forall₂ R) ts ts') :
      TriggersAlike R xs ys a a' ts ts'
  | chosen : TriggersAlike R xs ys a a' (Triggers.select xs a) (Triggers.select ys a')

/-- What the second relation relates, the first one relates below binders of the names. -/
structure BindsAlike (R R' : IL.Expr → IL.Expr → Prop) (xs ys : List String) : Prop where
  lets : ∀ {us us' : List (String × IL.Expr)} {a a' : IL.Expr}, us.map (·.1) = xs →
    us'.map (·.1) = ys → List.Forall₂ (fun u u' => R u.2 u'.2) us us' → R' a a' →
    R (.lets us a) (.lets us' a')
  quantify : ∀ {q : IL.Quantifier} {bs bs' : List IL.Binder} {ts ts' : List Trigger}
    {a a' : IL.Expr}, bs.map (·.1) = xs → bs'.map (·.1) = ys → bs.map (·.2) = bs'.map (·.2) →
    TriggersAlike R' xs ys a a' ts ts' → R' a a' → R (.quantify q bs ts a) (.quantify q bs' ts' a')

/-- Variables of the same types that are related in a scope. -/
abbrev RelatedVars (R : IL.Expr → IL.Expr → Prop) (bs bs' : List Source.Binder) : Prop :=
  List.Forall₂ (fun b b' => b'.2 = b.2 ∧ R (.var b.1) (.var b'.1)) bs bs'

/-- Two scopes below bound variables. -/
structure Enters (env : Env) (v v' : View) (R R' : IL.Expr → IL.Expr → Prop)
    (bs bs' : List Source.Binder) : Prop where
  types : bs'.map (·.2) = bs.map (·.2)
  binds : BindsAlike R R' (bs.map (·.1)) (bs'.map (·.1))
  congruence : Congruence env v v' R'

/-- The same with bound variables that have where clauses. -/
structure EntersWhere (env : Env) (v v' : View) (R R' : IL.Expr → IL.Expr → Prop)
    (bs bs' : List Source.Binder) : Prop extends Enters env v v' R R' bs bs' where
  vars : RelatedVars R' bs bs'

namespace Enters

variable {env : Env} {v v' : View} {R R' : IL.Expr → IL.Expr → Prop} {bs bs' : List Source.Binder}
  {a a' w w' : IL.Expr}

/-- Quantifiers over the variables, whose triggers are chosen if they are to be. -/
theorem quantify (h : Enters env v v' R R' bs bs') {q : IL.Quantifier} {ts ts' : List Trigger}
    (hts : TriggersAlike R' (bs.map (·.1)) (bs'.map (·.1)) a a' ts ts') (ha : R' a a') :
    R (.quantify q (sortBinders bs) ts a) (.quantify q (sortBinders bs') ts' a') := by
  refine h.binds.quantify (sortBinders_names bs) (sortBinders_names bs') ?_ hts ha
  simpa [sortBinders, List.map_map, Function.comp_def] using
    (congrArg (List.map Typ.sort) h.types).symm

theorem autoTriggers {xs ys : List String} {ts ts' : List Trigger}
    (hts : (ContractLowering.autoTriggers xs a).Returns env ts)
    (hts' : (ContractLowering.autoTriggers ys a').Returns env ts') :
    TriggersAlike R' xs ys a a' ts ts' := by
  simp only [ContractLowering.autoTriggers, ExprM.returns_bind, ExprM.returns_options,
    ExprM.returns_pure, exists_eq_left] at hts hts'
  subst hts hts'
  split
  · exact .chosen
  · exact .given .nil

/-- Existential quantification with chosen triggers. -/
theorem exAuto (h : Enters env v v' R R' bs bs') (ha : R' a a')
    (hw : (ContractLowering.exAuto (sortBinders bs) a).Returns env w)
    (hw' : (ContractLowering.exAuto (sortBinders bs') a').Returns env w') : R w w' := by
  simp only [ContractLowering.exAuto, ExprM.returns_bind, ExprM.returns_pure,
    sortBinders_names] at hw hw'
  obtain ⟨ts, hts, rfl⟩ := hw
  obtain ⟨ts', hts', rfl⟩ := hw'
  exact h.quantify (autoTriggers hts hts') ha

theorem wheres {h h' : IL.Expr} (hbs : EntersWhere env v v' R R' bs bs') (hh : R' h h')
    (hw : (bindersWhere h bs).Returns env w) (hw' : (bindersWhere h' bs').Returns env w') :
    R' w w' :=
  hbs.congruence.bindersWhere hh hbs.vars hw hw'

theorem letUnboxed {b b' : Source.Binder} (h : Enters env v v' R R' [b] [b'])
    (hR : Congruence env v v' R) (ha : R' a a') : R (letUnboxed b a) (letUnboxed b' a') := by
  refine h.binds.lets rfl rfl (.cons ?_ .nil) ha
  have htype : b'.2 = b.2 := by simpa using h.types
  rw [htype]
  exact hR.unbox (hR.generated .box)

end Enters

/-! ## Parts of expressions -/

/-- Two expressions of one type are lowered to related expressions. -/
structure Related (env : Env) (v v' : View) (R : IL.Expr → IL.Expr → Prop) (e e' : Source.Expr) :
    Prop where
  typ : e'.typ = e.typ
  lower : ∀ {a a'}, (lowerExpr v e).Returns env a → (lowerExpr v' e').Returns env a' → R a a'

namespace Related

section

variable {env : Env} {v v' : View} {R : IL.Expr → IL.Expr → Prop}

theorem lowerExpr? {o o' : Option Source.Expr} (ho : Option.Rel (Related env v v' R) o o')
    {u u' : Option IL.Expr} (hu : (ContractLowering.lowerExpr? v o).Returns env u)
    (hu' : (ContractLowering.lowerExpr? v' o').Returns env u') : Option.Rel R u u' := by
  cases ho with
  | none =>
    simp only [ContractLowering.lowerExpr?, ExprM.returns_pure] at hu hu'
    subst hu hu'
    exact .none
  | some h =>
    simp only [ContractLowering.lowerExpr?, ExprM.returns_bind, ExprM.returns_pure] at hu hu'
    obtain ⟨a, ha, rfl⟩ := hu
    obtain ⟨a', ha', rfl⟩ := hu'
    exact .some (h.lower ha ha')

theorem lowerTerms {es es' : List Source.Expr} (hes : List.Forall₂ (Related env v v' R) es es')
    {us us' : List IL.Expr} (hu : (ContractLowering.lowerTerms v es).Returns env us)
    (hu' : (ContractLowering.lowerTerms v' es').Returns env us') : List.Forall₂ R us us' := by
  induction hes generalizing us us' with
  | nil =>
    simp only [ContractLowering.lowerTerms, ExprM.returns_pure] at hu hu'
    subst hu hu'
    exact .nil
  | cons h _ ih =>
    simp only [ContractLowering.lowerTerms, ExprM.returns_bind, ExprM.returns_pure] at hu hu'
    obtain ⟨a, ha, as, has, rfl⟩ := hu
    obtain ⟨a', ha', as', has', rfl⟩ := hu'
    exact .cons (h.lower ha ha') (ih has has')

theorem lowerTriggers {ts ts' : List (List Source.Expr)}
    (hts : List.Forall₂ (List.Forall₂ (Related env v v' R)) ts ts') {us us' : List Trigger}
    (hu : (ContractLowering.lowerTriggers v ts).Returns env us)
    (hu' : (ContractLowering.lowerTriggers v' ts').Returns env us') :
    List.Forall₂ (List.Forall₂ R) us us' := by
  induction hts generalizing us us' with
  | nil =>
    simp only [ContractLowering.lowerTriggers, ExprM.returns_pure] at hu hu'
    subst hu hu'
    exact .nil
  | cons h _ ih =>
    simp only [ContractLowering.lowerTriggers, ExprM.returns_bind, ExprM.returns_pure] at hu hu'
    obtain ⟨a, ha, as, has, rfl⟩ := hu
    obtain ⟨a', ha', as', has', rfl⟩ := hu'
    exact .cons (lowerTerms h ha ha') (ih has has')

theorem chosenTriggers {xs ys : List String} {ts ts' : List (List Source.Expr)}
    (hts : List.Forall₂ (List.Forall₂ (Related env v v' R)) ts ts') {a a' : IL.Expr}
    {us us' : List Trigger} (hu : (ContractLowering.chosenTriggers v xs ts a).Returns env us)
    (hu' : (ContractLowering.chosenTriggers v' ys ts' a').Returns env us') :
    TriggersAlike R xs ys a a' us us' := by
  cases hts with
  | nil => exact Enters.autoTriggers hu hu'
  | cons ht hts => exact .given (lowerTriggers (.cons ht hts) hu hu')

theorem lowerBindings {bs bs' : List (String × Source.Expr)}
    (hbs : List.Forall₂ (fun p p' => Related env v v' R p.2 p'.2) bs bs')
    {us us' : List (String × IL.Expr)} (hu : (ContractLowering.lowerBindings v bs).Returns env us)
    (hu' : (ContractLowering.lowerBindings v' bs').Returns env us') :
    us.map (·.1) = bs.map (·.1) ∧ us'.map (·.1) = bs'.map (·.1) ∧
      List.Forall₂ (fun u u' => R u.2 u'.2) us us' := by
  induction hbs generalizing us us' with
  | nil =>
    simp only [ContractLowering.lowerBindings, ExprM.returns_pure] at hu hu'
    subst hu hu'
    exact ⟨rfl, rfl, .nil⟩
  | cons h _ ih =>
    simp only [ContractLowering.lowerBindings, ExprM.returns_bind, ExprM.returns_pure] at hu hu'
    obtain ⟨a, ha, as, has, rfl⟩ := hu
    obtain ⟨a', ha', as', has', rfl⟩ := hu'
    obtain ⟨hnames, hnames', hrest⟩ := ih has has'
    exact ⟨by simp [hnames], by simp [hnames'], .cons (h.lower ha ha') hrest⟩

variable (hR : Congruence env v v' R)
include hR

theorem heapArgs (callee : Function) :
    List.Forall₂ R (ContractLowering.heapArgs v callee) (ContractLowering.heapArgs v' callee) := by
  unfold ContractLowering.heapArgs
  split
  · exact .nil
  · exact .cons hR.heap .nil

theorem receiverArgs {owner : Option Path} {o o' : Option Source.Expr}
    (ho : Option.Rel (Related env v v' R) o o') {us us' : List IL.Expr}
    (hu : (ContractLowering.receiverArgs v owner o).Returns env us)
    (hu' : (ContractLowering.receiverArgs v' owner o').Returns env us') : List.Forall₂ R us us' := by
  cases owner with
  | none =>
    simp only [ContractLowering.receiverArgs, ExprM.returns_pure] at hu hu'
    subst hu hu'
    exact .nil
  | some p =>
    cases ho with
    | none =>
      simp only [ContractLowering.receiverArgs, lowerReceiver, ExprM.returns_pure] at hu hu'
      subst hu hu'
      exact .cons (hR.this) .nil
    | some h =>
      simp only [ContractLowering.receiverArgs, lowerReceiver, ExprM.returns_bind,
        ExprM.returns_pure] at hu hu'
      obtain ⟨a, ha, rfl⟩ := hu
      obtain ⟨a', ha', rfl⟩ := hu'
      exact .cons (h.lower ha ha') .nil

theorem lowerArgs {es es' : List Source.Expr} (hes : List.Forall₂ (Related env v v' R) es es')
    {ps : List Source.Binder} {us us' : List IL.Expr}
    (hu : (ContractLowering.lowerArgs v ps es).Returns env us)
    (hu' : (ContractLowering.lowerArgs v' ps es').Returns env us') : List.Forall₂ R us us' := by
  induction hes generalizing ps us us' with
  | nil =>
    simp only [ContractLowering.lowerArgs, ExprM.returns_pure] at hu hu'
    subst hu hu'
    exact .nil
  | cons h _ ih =>
    cases ps with
    | nil =>
      simp only [ContractLowering.lowerArgs, ExprM.returns_pure] at hu hu'
      subst hu hu'
      exact .nil
    | cons p ps =>
      simp only [ContractLowering.lowerArgs, ExprM.returns_bind, ExprM.returns_pure] at hu hu'
      obtain ⟨a, ha, as, has, rfl⟩ := hu
      obtain ⟨a', ha', as', has', rfl⟩ := hu'
      rw [h.typ]
      exact .cons (hR.convert (h.lower ha ha')) (ih has has')

/-- The arguments of a call. -/
theorem lowerCallArgs {f : Path} {o o' : Option Source.Expr} {es es' : List Source.Expr}
    (ho : Option.Rel (Related env v v' R) o o') (hes : List.Forall₂ (Related env v v' R) es es')
    {us us' : List IL.Expr} (hu : (ContractLowering.lowerCallArgs v f o es).Returns env us)
    (hu' : (ContractLowering.lowerCallArgs v' f o' es').Returns env us') :
    List.Forall₂ R us us' := by
  obtain ⟨callee, hcallee, recv, hrecv, rest, hrest, rfl⟩ := returns_lowerCallArgs.1 hu
  obtain ⟨callee', hcallee', recv', hrecv', rest', hrest', rfl⟩ := returns_lowerCallArgs.1 hu'
  obtain rfl : callee = callee' := Except.ok.inj (hcallee.symm.trans hcallee')
  exact List.rel_append (List.rel_append (heapArgs hR callee) (receiverArgs hR ho hrecv hrecv'))
    (lowerArgs hR hes hrest hrest')

theorem lowerElements {es es' : List Source.Expr} (hes : List.Forall₂ (Related env v v' R) es es')
    {elem : Typ} {g : String} {add : IL.Expr → IL.Expr → IL.Expr}
    (hadd : ∀ a b, add a b = .app g [a, b]) {acc acc' a a' : IL.Expr} (hacc : R acc acc')
    (ha : (ContractLowering.lowerElements v elem add acc es).Returns env a)
    (ha' : (ContractLowering.lowerElements v' elem add acc' es').Returns env a') : R a a' := by
  induction hes generalizing acc acc' with
  | nil =>
    simp only [ContractLowering.lowerElements, ExprM.returns_pure] at ha ha'
    subst ha ha'
    exact hacc
  | cons h _ ih =>
    simp only [ContractLowering.lowerElements, ExprM.returns_bind, hadd] at ha ha'
    obtain ⟨b, hb, ha⟩ := ha
    obtain ⟨b', hb', ha'⟩ := ha'
    rw [h.typ] at ha'
    exact ih (hR.app₂ hacc (hR.box (hR.convert (h.lower hb hb')))) ha ha'

theorem lowerEntries {kvs kvs' : List (Source.Expr × Source.Expr)}
    (hkvs : List.Forall₂ (fun p q => Related env v v' R p.1 q.1 ∧ Related env v v' R p.2 q.2) kvs kvs')
    {key value : Typ} {acc acc' a a' : IL.Expr} (hacc : R acc acc')
    (ha : (ContractLowering.lowerEntries v key value acc kvs).Returns env a)
    (ha' : (ContractLowering.lowerEntries v' key value acc' kvs').Returns env a') : R a a' := by
  induction hkvs generalizing acc acc' with
  | nil =>
    simp only [ContractLowering.lowerEntries, ExprM.returns_pure] at ha ha'
    subst ha ha'
    exact hacc
  | cons h _ ih =>
    simp only [ContractLowering.lowerEntries, ExprM.returns_bind] at ha ha'
    obtain ⟨k, hk, b, hb, ha⟩ := ha
    obtain ⟨k', hk', b', hb', ha'⟩ := ha'
    rw [h.1.typ, h.2.typ] at ha'
    exact ih (hR.app₃ hacc (hR.box (hR.convert (h.1.lower hk hk')))
      (hR.box (hR.convert (h.2.lower hb hb')))) ha ha'

/-- The matrices of two quantifiers. -/
theorem quantMatrix {q : Source.Quantifier} {w w' b b' : IL.Expr} {r r' : Option IL.Expr}
    (hw : R w w') (hr : Option.Rel R r r') (hb : R b b') :
    R (ContractLowering.quantMatrix q w r b) (ContractLowering.quantMatrix q w' r' b') := by
  have hrange : R (r.getD .tt) (r'.getD .tt) := by
    cases hr with
    | none => exact hR.bool true
    | some h => exact h
  cases q with
  | all => exact hR.imp (hR.conj₂ hw hrange) hb
  | ex => exact hR.conj (.cons hw (.cons hrange (.cons hb .nil)))

end

/-! ## Expressions -/

section

variable {env : Env} {v v' : View} {R R' : IL.Expr → IL.Expr → Prop} {i i' : Info}
  {e e' a a' b b' c c' : Source.Expr}

/-- The past looks at the old heap. -/
theorem old (ht : i'.typ = i.typ) (h : Related env v.old v'.old R e e') :
    Related env v v' R (.old i e) (.old i' e') where
  typ := ht
  lower ha ha' := by
    simp only [lowerExpr] at ha ha'
    exact h.lower ha ha'

variable (hR : Congruence env v v' R) (ht : i'.typ = i.typ)
include hR ht

theorem bool (b : Bool) : Related env v v' R (.bool i b) (.bool i' b) where
  typ := ht
  lower ha ha' := by
    simp only [lowerExpr, ExprM.returns_pure] at ha ha'
    subst ha ha'
    exact hR.bool b

theorem int (n : Int) : Related env v v' R (.int i n) (.int i' n) where
  typ := ht
  lower ha ha' := by
    simp only [lowerExpr, ExprM.returns_pure] at ha ha'
    subst ha ha'
    unfold intConst
    split
    · exact hR.multi₂ (hR.nat 0) (hR.nat _)
    · exact hR.nat _

theorem null : Related env v v' R (.null i) (.null i') where
  typ := ht
  lower ha ha' := by
    simp only [lowerExpr, ExprM.returns_pure] at ha ha'
    subst ha ha'
    exact hR.null

omit hR in
theorem var {x y : String} (h : R (.var x) (.var y)) : Related env v v' R (.var i x) (.var i' y) where
  typ := ht
  lower ha ha' := by
    simp only [lowerExpr, ExprM.returns_pure] at ha ha'
    subst ha ha'
    exact h

theorem this : Related env v v' R (.this i) (.this i') where
  typ := ht
  lower ha ha' := by
    simp only [lowerExpr, ExprM.returns_pure] at ha ha'
    subst ha ha'
    exact hR.this

theorem field {f : FieldId} (h : Related env v v' R e e') :
    Related env v v' R (.field i e f) (.field i' e' f) where
  typ := ht
  lower ha ha' := by
    simp only [lowerExpr, ExprM.returns_bind, ExprM.returns_field, Heap.returns_fieldHandle,
      ExprM.returns_pure, exists_eq_left] at ha ha'
    obtain ⟨fld, hfld, o, ho, rfl⟩ := ha
    obtain ⟨fld', hfld', o', ho', rfl⟩ := ha'
    obtain rfl : fld = fld' := Except.ok.inj (hfld.symm.trans hfld')
    have hid : env.context.field fld.id = .ok fld := by rw [Context.id_of_field hfld]; exact hfld
    rw [ht]
    exact hR.convert (hR.readField hid (h.lower ho ho'))

theorem index (ha : Related env v v' R a a') (hb : Related env v v' R b b') :
    Related env v v' R (.index i a b) (.index i' a' b') where
  typ := ht
  lower hc hc' := by
    simp only [lowerExpr, ExprM.returns_bind] at hc hc'
    obtain ⟨x, hx, y, hy, hc⟩ := hc
    obtain ⟨x', hx', y', hy', hc'⟩ := hc'
    rw [ha.typ, hb.typ, ht] at hc'
    exact hR.lowerIndex (ha.lower hx hx') (hb.lower hy hy') hc hc'

theorem slice {lo hi lo' hi' : Option Source.Expr} (h : Related env v v' R e e')
    (hlo : Option.Rel (Related env v v' R) lo lo') (hhi : Option.Rel (Related env v v' R) hi hi') :
    Related env v v' R (.slice i e lo hi) (.slice i' e' lo' hi') where
  typ := ht
  lower hc hc' := by
    simp only [lowerExpr, ExprM.returns_bind, ExprM.returns_pure] at hc hc'
    obtain ⟨x, hx, l, hl, u, hu, rfl⟩ := hc
    obtain ⟨x', hx', l', hl', u', hu', rfl⟩ := hc'
    have hx := h.lower hx hx'
    rw [h.typ]
    refine hR.seqSlice ?_ (lowerExpr? hlo hl hl') (lowerExpr? hhi hu hu')
    split
    · exact hR.app₂ hR.heap hx
    · exact hx

theorem update (ha : Related env v v' R a a') (hb : Related env v v' R b b')
    (hc : Related env v v' R c c') : Related env v v' R (.update i a b c) (.update i' a' b' c') where
  typ := ht
  lower hd hd' := by
    simp only [lowerExpr, ExprM.returns_bind] at hd hd'
    obtain ⟨x, hx, y, hy, z, hz, hd⟩ := hd
    obtain ⟨x', hx', y', hy', z', hz', hd'⟩ := hd'
    rw [ha.typ, hc.typ] at hd'
    exact hR.lowerUpdate (ha.lower hx hx') (hb.lower hy hy') (hc.lower hz hz') hd hd'

theorem arrayLength (h : Related env v v' R e e') :
    Related env v v' R (.arrayLength i e) (.arrayLength i' e') where
  typ := ht
  lower ha ha' := by
    simp only [lowerExpr, ExprM.returns_bind, Heap.returns_arrayLength] at ha ha'
    obtain ⟨x, hx, rfl⟩ := ha
    obtain ⟨x', hx', rfl⟩ := ha'
    exact hR.app₁ (h.lower hx hx')

theorem display {kind : Collection} {es es' : List Source.Expr}
    (hes : List.Forall₂ (Related env v v' R) es es') :
    Related env v v' R (.display i kind es) (.display i' kind es') where
  typ := ht
  lower ha ha' := by
    simp only [lowerExpr, ExprM.returns_bind] at ha ha'
    obtain ⟨t, ht₁, ha⟩ := ha
    obtain ⟨t', ht₂, ha'⟩ := ha'
    rw [ht] at ht₂
    obtain rfl := ht₁.unique ht₂
    have hempty : R (displayOps kind).1 (displayOps kind).1 := by
      cases kind <;> exact hR.const (by simp [preludeConstants])
    cases kind <;> exact lowerElements hR hes (fun _ _ => rfl) hempty ha ha'

theorem mapDisplay {kvs kvs' : List (Source.Expr × Source.Expr)}
    (hkvs : List.Forall₂ (fun p q => Related env v v' R p.1 q.1 ∧ Related env v v' R p.2 q.2) kvs kvs') :
    Related env v v' R (.mapDisplay i kvs) (.mapDisplay i' kvs') where
  typ := ht
  lower ha ha' := by
    simp only [lowerExpr, ExprM.returns_bind] at ha ha'
    obtain ⟨t, ht₁, ha⟩ := ha
    obtain ⟨t', ht₂, ha'⟩ := ha'
    rw [ht] at ht₂
    obtain rfl := ht₁.unique ht₂
    exact lowerEntries hR hkvs (hR.const (by simp [preludeConstants])) ha ha'

theorem ctor {dt : Path} {k : String} {es es' : List Source.Expr}
    (hes : List.Forall₂ (Related env v v' R) es es') :
    Related env v v' R (.ctor i dt k es) (.ctor i' dt k es') where
  typ := ht
  lower ha ha' := by
    simp only [lowerExpr, ExprM.returns_bind, ExprM.returns_datatype, ExprM.returns_ofExcept,
      ExprM.returns_pure] at ha ha'
    obtain ⟨d, hd, k, hk, us, hus, rfl⟩ := ha
    obtain ⟨d', hd', k', hk', us', hus', rfl⟩ := ha'
    obtain rfl : d = d' := Except.ok.inj (hd.symm.trans hd')
    obtain rfl : k = k' := Except.ok.inj (hk.symm.trans hk')
    exact hR.app (lowerArgs hR hes hus hus')

theorem destruct {dt : Path} {k f : String} (h : Related env v v' R e e') :
    Related env v v' R (.destruct i e dt k f) (.destruct i' e' dt k f) where
  typ := ht
  lower ha ha' := by
    simp only [lowerExpr, ExprM.returns_bind, ExprM.returns_datatype, ExprM.returns_ofExcept,
      ExprM.returns_pure] at ha ha'
    obtain ⟨d, hd, k, hk, fld, hfld, x, hx, rfl⟩ := ha
    obtain ⟨d', hd', k', hk', fld', hfld', x', hx', rfl⟩ := ha'
    obtain rfl : d = d' := Except.ok.inj (hd.symm.trans hd')
    obtain rfl : k = k' := Except.ok.inj (hk.symm.trans hk')
    obtain rfl : fld = fld' := Except.ok.inj (hfld.symm.trans hfld')
    rw [ht]
    exact hR.convert (hR.app₁ (h.lower hx hx'))

theorem isCtor {dt : Path} {k : String} (h : Related env v v' R e e') :
    Related env v v' R (.isCtor i e dt k) (.isCtor i' e' dt k) where
  typ := ht
  lower ha ha' := by
    simp only [lowerExpr, ExprM.returns_bind, ExprM.returns_pure] at ha ha'
    obtain ⟨x, hx, rfl⟩ := ha
    obtain ⟨x', hx', rfl⟩ := ha'
    exact hR.app₁ (h.lower hx hx')

theorem fresh (h : Related env v v' R e e') : Related env v v' R (.fresh i e) (.fresh i' e') where
  typ := ht
  lower ha ha' := by
    simp only [lowerExpr, ExprM.returns_bind, ExprM.returns_pure] at ha ha'
    obtain ⟨x, hx, rfl⟩ := ha
    obtain ⟨x', hx', rfl⟩ := ha'
    rw [h.typ]
    exact hR.lowerFresh _ (h.lower hx hx')

theorem unary {op : UnOp} (h : Related env v v' R e e') :
    Related env v v' R (.unary i op e) (.unary i' op e') where
  typ := ht
  lower ha ha' := by
    cases op with
    | not =>
      simp only [lowerExpr, ExprM.returns_bind, ExprM.returns_pure] at ha ha'
      obtain ⟨x, hx, rfl⟩ := ha
      obtain ⟨x', hx', rfl⟩ := ha'
      exact hR.neg (h.lower hx hx')
    | neg =>
      simp only [lowerExpr, ExprM.returns_bind, ExprM.returns_pure] at ha ha'
      obtain ⟨x, hx, rfl⟩ := ha
      obtain ⟨x', hx', rfl⟩ := ha'
      exact hR.multi₂ (hR.nat 0) (h.lower hx hx')
    | card =>
      simp only [lowerExpr, ExprM.returns_bind, ExprM.returns_pure] at ha ha'
      obtain ⟨size, hsize, x, hx, rfl⟩ := ha
      obtain ⟨size', hsize', x', hx', rfl⟩ := ha'
      rw [h.typ] at hsize'
      exact hR.lowerCard (h.lower hx hx') hsize hsize'

theorem binary {op : Source.BinOp} (ha : Related env v v' R a a') (hb : Related env v v' R b b') :
    Related env v v' R (.binary i op a b) (.binary i' op a' b') where
  typ := ht
  lower hc hc' := by
    simp only [lowerExpr, ExprM.returns_bind] at hc hc'
    obtain ⟨x, hx, y, hy, hc⟩ := hc
    obtain ⟨x', hx', y', hy', hc'⟩ := hc'
    rw [ha.typ, hb.typ] at hc'
    exact hR.lowerBinary (ha.lower hx hx') (hb.lower hy hy') hc hc'

omit hR in
theorem quant {q : Source.Quantifier} {bs bs' : List Source.Binder} {r r' : Option Source.Expr}
    {ts ts' : List (List Source.Expr)} {ind ind' : Induction}
    (hbs : EntersWhere env v v' R R' bs bs') (hr : Option.Rel (Related env v v' R') r r')
    (h : Related env v v' R' e e') (hts : List.Forall₂ (List.Forall₂ (Related env v v' R')) ts ts') :
    Related env v v' R (.quant i q bs r e ts ind) (.quant i' q bs' r' e' ts' ind') where
  typ := ht
  lower ha ha' := by
    obtain ⟨w, hw, u, hu, x, hx, us, hus, rfl⟩ := returns_lowerExpr_quant.1 ha
    obtain ⟨w', hw', u', hu', x', hx', us', hus', rfl⟩ := returns_lowerExpr_quant.1 ha'
    have hmatrix : R' (ContractLowering.quantMatrix q w u x)
        (ContractLowering.quantMatrix q w' u' x') :=
      quantMatrix hbs.congruence (Enters.wheres hbs hbs.congruence.heap hw hw')
        (lowerExpr? hr hu hu') (h.lower hx hx')
    exact hbs.quantify (chosenTriggers hts hus hus') hmatrix

/-- The predicates of two set comprehensions, which collect their variable both or neither. -/
theorem setPredicate {bs bs' : List Source.Binder} (hbs : EntersWhere env v v' R R' bs bs')
    {t t' : Option Source.Expr} (hcollects : ∀ b b', bs = [b] → bs' = [b'] →
      collectsBinder b.1 t = collectsBinder b'.1 t')
    (hterm : ∀ d ∈ t, ∀ d' ∈ t', Related env v v' R' d d') {w w' r r' p p' : IL.Expr} (hw : R' w w') (hr : R' r r')
    (hp : (ContractLowering.setPredicate v i bs t w r).Returns env p)
    (hp' : (ContractLowering.setPredicate v' i' bs' t' w' r').Returns env p') : R p p' := by
  have hlen : bs'.length = bs.length := by simpa using congrArg List.length hbs.types
  unfold ContractLowering.setPredicate at hp hp'
  split at hp
  · rename_i b hb
    obtain ⟨b', rfl⟩ := List.length_eq_one_iff.1 hlen
    rw [List.headD_cons, hcollects b b' rfl rfl] at hb
    simp only [List.headD_cons, hb, ExprM.returns_pure] at hp hp'
    subst hp hp'
    exact hbs.letUnboxed hR (hbs.congruence.conj₂ hw hr)
  · rename_i bs _ _ hother
    split at hp'
    · rename_i b' hb'
      obtain ⟨b, rfl⟩ := List.length_eq_one_iff.1 hlen.symm
      rw [List.headD_cons, ← hcollects b b' rfl rfl] at hb'
      exact absurd hb' (hother b rfl)
    · rename_i bs' _ _ hother'
      cases t with
      | none => simp at hp
      | some d =>
        cases t' with
        | none => simp at hp'
        | some d' =>
          have h := hterm d rfl d' rfl
          simp only [ExprM.returns_bind, ht] at hp hp'
          obtain ⟨elem, helem, x, hx, hp⟩ := hp
          obtain ⟨elem', helem', x', hx', hp'⟩ := hp'
          obtain rfl := helem.unique helem'
          rw [h.typ] at hp'
          have hR' := hbs.congruence
          have hmember := hR'.box (t := elem) (hR'.convert (s := d.typ) (t := elem)
            (h.lower hx hx'))
          refine hbs.exAuto ?_ hp hp'
          exact hR'.conj (.cons hw (.cons hr (.cons
            (hR'.binary (hR'.generated .box) hmember) .nil)))

theorem setComp {bs bs' : List Source.Binder} (hbs : EntersWhere env v v' R R' bs bs')
    {t t' : Option Source.Expr} (hcollects : ∀ b b', bs = [b] → bs' = [b'] →
      collectsBinder b.1 t = collectsBinder b'.1 t')
    (h : Related env v v' R' e e') (hterm : ∀ d ∈ t, ∀ d' ∈ t', Related env v v' R' d d') :
    Related env v v' R (.setComp i bs e t) (.setComp i' bs' e' t') where
  typ := ht
  lower ha ha' := by
    obtain ⟨w, hw, x, hx, p, hp, rfl⟩ := returns_lowerExpr_setComp.1 ha
    obtain ⟨w', hw', x', hx', p', hp', rfl⟩ := returns_lowerExpr_setComp.1 ha'
    exact hR.app₁ (hR.boxes (setPredicate hR ht hbs hcollects hterm
      (Enters.wheres hbs hbs.congruence.heap hw hw') (h.lower hx hx') hp hp'))

theorem mapComp {b b' : Source.Binder} (hbs : EntersWhere env v v' R R' [b] [b'])
    (h : Related env v v' R' e e') (hterm : Related env v v' R' a a') :
    Related env v v' R (.mapComp i b e a) (.mapComp i' b' e' a') where
  typ := ht
  lower hc hc' := by
    simp only [lowerExpr, ExprM.returns_bind, ExprM.returns_pure] at hc hc'
    obtain ⟨kt, hkt, w, hw, x, hx, y, hy, rfl⟩ := hc
    obtain ⟨kt', hkt', w', hw', x', hx', y', hy', rfl⟩ := hc'
    rw [ht] at hkt'
    obtain rfl := hkt.unique hkt'
    rw [hterm.typ]
    have hR' := hbs.congruence
    refine hR.app₂ (hR.app₁ (hR.boxes (hbs.letUnboxed hR ?_))) (hR.boxes (hbs.letUnboxed hR ?_))
    · exact hR'.conj₂ (Enters.wheres hbs hR'.heap hw hw') (h.lower hx hx')
    · exact hR'.box (hR'.convert (hterm.lower hy hy'))

omit hR in
theorem letIn {bs bs' : List (String × Source.Expr)}
    (hbinds : BindsAlike R R' (bs.map (·.1)) (bs'.map (·.1)))
    (hbs : List.Forall₂ (fun p p' => Related env v v' R p.2 p'.2) bs bs')
    (h : Related env v v' R' e e') : Related env v v' R (.letIn i bs e) (.letIn i' bs' e') where
  typ := ht
  lower ha ha' := by
    simp only [lowerExpr, ExprM.returns_bind, ExprM.returns_pure] at ha ha'
    obtain ⟨us, hus, x, hx, rfl⟩ := ha
    obtain ⟨us', hus', x', hx', rfl⟩ := ha'
    obtain ⟨hnames, hnames', hvalues⟩ := lowerBindings hbs hus hus'
    exact hbinds.lets hnames hnames' hvalues (h.lower hx hx')

theorem ite (hc : Related env v v' R c c') (ha : Related env v v' R a a') (hb : Related env v v' R b b') :
    Related env v v' R (.ite i c a b) (.ite i' c' a' b') where
  typ := ht
  lower hd hd' := by
    simp only [lowerExpr, ExprM.returns_bind, ExprM.returns_pure] at hd hd'
    obtain ⟨x, hx, y, hy, z, hz, rfl⟩ := hd
    obtain ⟨x', hx', y', hy', z', hz', rfl⟩ := hd'
    rw [ha.typ, hb.typ, ht]
    exact hR.cond (hc.lower hz hz') (hR.convert (ha.lower hx hx')) (hR.convert (hb.lower hy hy'))

theorem call {f : Path} {r r' : Option Source.Expr} {es es' : List Source.Expr}
    (hr : Option.Rel (Related env v v' R) r r') (hes : List.Forall₂ (Related env v v' R) es es') :
    Related env v v' R (.call i f r es) (.call i' f r' es') where
  typ := ht
  lower ha ha' := by
    obtain ⟨callee, hcallee, layer, hlayer, us, hus, ws, hws, rfl⟩ := returns_lowerExpr_call.1 ha
    obtain ⟨callee', hcallee', layer', hlayer', us', hus', ws', hws', rfl⟩ :=
      returns_lowerExpr_call.1 ha'
    obtain rfl : callee = callee' := Except.ok.inj (hcallee.symm.trans hcallee')
    have hsame : callLayer v' f = callLayer v f := by simp only [callLayer, hR.layer]
    obtain rfl := hlayer.unique (hsame ▸ hlayer')
    rw [ht]
    exact hR.convert (hR.app (List.rel_append (List.rel_append (heapArgs hR callee)
      (receiverArgs hR hr hus hus')) (lowerArgs hR hes hws hws')))

end

end Related

/-! ## Match cases -/

/-- The bindings of two match cases with one constructor. -/
theorem Compatible.caseBindings {env : Env} {R : IL.Expr → IL.Expr → Prop} (hR : Compatible R)
    {d : Datatype} {dt : Path} {p p' : Pattern} (hctor : p'.ctor = p.ctor)
    (htypes : p'.binders.map (·.2) = p.binders.map (·.2))
    (hfits : ∀ {k}, d.ctor p.ctor = .ok k → p.binders.length ≤ k.fields.length) {a a' : IL.Expr}
    (ha : R a a') {us us' : List (String × IL.Expr)}
    (hu : (ContractLowering.caseBindings d dt p a).Returns env us)
    (hu' : (ContractLowering.caseBindings d dt p' a').Returns env us') :
    us.map (·.1) = p.binders.map (·.1) ∧ us'.map (·.1) = p'.binders.map (·.1) ∧
      List.Forall₂ (fun u u' => R u.2 u'.2) us us' := by
  simp only [ContractLowering.caseBindings, ExprM.returns_bind, ExprM.returns_ofExcept,
    ExprM.returns_pure, hctor] at hu hu'
  obtain ⟨k, hk, rfl⟩ := hu
  obtain ⟨k', hk', rfl⟩ := hu'
  obtain rfl : k = k' := Except.ok.inj (hk.symm.trans hk')
  have names (bs : List Source.Binder) (h : bs.length ≤ k.fields.length) :
      ((bs.zip k.fields).map fun u => (u.1.1, Boxing.convert u.2.2 u.1.2 (IL.Expr.app
        (Naming.destructor dt p.ctor u.2.1) [a']))).map (·.1) = bs.map (·.1) := by
    conv_rhs => rw [← List.map_fst_zip h, List.map_map]
    rw [List.map_map]
    rfl
  have hlen : p'.binders.length = p.binders.length := by simpa using congrArg List.length htypes
  refine ⟨?_, names _ (hlen ▸ hfits hk), ?_⟩
  · have hnames := names p.binders (hfits hk)
    simpa only [List.map_map, Function.comp_def] using hnames
  · rw [List.forall₂_map_left_iff, List.forall₂_map_right_iff]
    generalize p.binders = bs at htypes
    generalize p'.binders = bs' at htypes
    generalize k.fields = fs
    clear names hlen
    induction bs generalizing bs' fs with
    | nil =>
      obtain rfl := List.map_eq_nil_iff.1 htypes
      exact .nil
    | cons b bs ih =>
      obtain ⟨b', bs', rfl, hb, hbs⟩ := List.map_eq_cons_iff.1 htypes
      cases fs with
      | nil => exact .nil
      | cons f fs =>
        refine .cons ?_ (ih _ hbs fs)
        rw [hb]
        exact hR.convert (hR.app₁ ha)

/-- Two match cases with one constructor, whose bodies are related below its variables. -/
structure RelatedArm (env : Env) (v v' : View) (R : IL.Expr → IL.Expr → Prop) (d : Datatype)
    (p q : Pattern × Source.Expr) : Prop where
  ctor : q.1.ctor = p.1.ctor
  fits : ∀ {k}, d.ctor p.1.ctor = .ok k → p.1.binders.length ≤ k.fields.length
  body : ∃ R', Enters env v v' R R' p.1.binders q.1.binders ∧ Related env v v' R' p.2 q.2

namespace Related

variable {env : Env} {v v' : View} {R : IL.Expr → IL.Expr → Prop} (hR : Congruence env v v' R)
include hR

theorem lowerArms {d : Datatype} {dt : Path} {arms arms' : List (Pattern × Source.Expr)}
    (harms : List.Forall₂ (RelatedArm env v v' R d) arms arms') {a a' : IL.Expr} (ha : R a a')
    {result : Typ} {o o' : Option IL.Expr}
    (ho : (ContractLowering.lowerArms v d dt a result arms).Returns env o)
    (ho' : (ContractLowering.lowerArms v' d dt a' result arms').Returns env o') :
    Option.Rel R o o' := by
  induction harms generalizing o o' with
  | nil =>
    simp only [ContractLowering.lowerArms, ExprM.returns_pure] at ho ho'
    subst ho ho'
    exact .none
  | @cons p q arms arms' h _ ih =>
    simp only [ContractLowering.lowerArms, ExprM.returns_bind] at ho ho'
    obtain ⟨rest, hrest, us, hus, b, hb, ho⟩ := ho
    obtain ⟨rest', hrest', us', hus', b', hb', ho'⟩ := ho'
    obtain ⟨R', hinner, hbody⟩ := h.body
    obtain ⟨hnames, hnames', hvalues⟩ :=
      hR.toCompatible.caseBindings h.ctor hinner.types h.fits ha hus hus'
    have harm : R (.lets us (Boxing.convert p.2.typ result b))
        (.lets us' (Boxing.convert q.2.typ result b')) := by
      rw [hbody.typ]
      exact hinner.binds.lets hnames hnames' hvalues
        (hinner.congruence.convert (hbody.lower hb hb'))
    cases ih hrest hrest' with
    | none =>
      simp only [ExprM.returns_pure] at ho ho'
      subst ho ho'
      exact .some harm
    | some hothers =>
      simp only [ExprM.returns_pure] at ho ho'
      subst ho ho'
      rw [h.ctor]
      exact .some (hR.cond (hR.app₁ ha) harm hothers)

theorem cases {i i' : Info} (ht : i'.typ = i.typ) {e e' : Source.Expr}
    {arms arms' : List (Pattern × Source.Expr)} (h : Related env v v' R e e')
    (harms : ∀ {dt args d}, e.typ = .datatype dt args → env.context.datatype dt = .ok d →
      List.Forall₂ (RelatedArm env v v' R d) arms arms') :
    Related env v v' R (.cases i e arms) (.cases i' e' arms') where
  typ := ht
  lower ha ha' := by
    obtain ⟨x, hx, dt, hdt, d, hd, ha⟩ := returns_lowerExpr_cases.1 ha
    obtain ⟨x', hx', dt', hdt', d', hd', ha'⟩ := returns_lowerExpr_cases.1 ha'
    rw [h.typ] at hdt'
    obtain rfl := hdt.unique hdt'
    obtain rfl : d = d' := Except.ok.inj (hd.symm.trans hd')
    obtain ⟨args, hvalue⟩ := returns_matchedDatatype.1 hdt
    rw [ht] at ha'
    cases lowerArms hR (harms hvalue hd) (h.lower hx hx') ha ha' with
    | some h => exact h

end Related

end ContractLowering
