import ContractLowering.Proofs.Lowering.Congruence
import ContractLowering.Proofs.Lowering.TriggerChoice
import ContractLowering.Proofs.Lowering.Total
import ContractLowering.Proofs.Source.Alpha

/-!
# Lowering respects the names that a program chose

Well-typed expressions that differ in bound names are lowered to expressions that differ in bound
names (`lowering_alpha`), if no bound variable has a name that lowered code mentions on its own
account. A variable that has one captures it: below a variable `null` the null reference can no
longer be said (`null_captured`).

The relation `Alpha C` is a congruence of lowering as long as reserved names correspond to
themselves (`Hygienic`), which they do below binders with other names.
-/

namespace ContractLowering

open IL Source

/-! ## The relation as a congruence -/

/-- Differing in bound names is compatible with building expressions. -/
theorem Compatible.alpha (C : String → String → Prop) : Compatible (IL.Alpha C) where
  bool := .bool
  num := .num
  app h := IL.Alpha.app_iff.2 ⟨_, rfl, h⟩
  binary := .binary
  multi := .multi'
  neg := .neg
  conj := .conj
  disj := IL.Alpha.folding.disj
  imp := .imp
  cond := .cond
  applied h := .of_apps h IL.Alpha.app_iff.1 fun h => by
    cases h
    exact ⟨_, rfl⟩

/-- Names correspond one to one, reserved ones to themselves, and heaps have no triggers. -/
structure Hygienic (env : Env) (v : View) (C : String → String → Prop) : Prop where
  unique : Relator.BiUnique C
  reserved : ∀ {x}, Reserved env v x → C x x
  heap : v.heap.ren id = v.heap
  oldHeap : v.oldHeap.ren id = v.oldHeap

namespace Hygienic

variable {env : Env} {v : View} {C : String → String → Prop}

theorem old (h : Hygienic env v C) : Hygienic env v.old C :=
  ⟨h.unique, fun hx => h.reserved hx.of_old, h.oldHeap, h.oldHeap⟩

/-- Binders whose names are not reserved change nothing for reserved names. -/
theorem under (h : Hygienic env v C) {xs ys : List String} (hxy : Consistent xs ys)
    (hxs : ∀ x ∈ xs, ¬ Reserved env v x) (hys : ∀ y ∈ ys, ¬ Reserved env v y) :
    Hygienic env v (under xs ys C) :=
  ⟨hxy.biUnique h.unique, fun hx => under_of_notMem (fun hm => hxs _ hm hx)
    (fun hm => hys _ hm hx) (h.reserved hx), h.heap, h.oldHeap⟩

theorem congruence (h : Hygienic env v C) : Congruence env v v (IL.Alpha C) := by
  refine .of_reserved (.alpha C) (fun hx => .var (h.reserved hx))
    (h.heap ▸ .of_names v.heap fun _ hx => h.reserved (.heap hx))
    (h.oldHeap ▸ .of_names v.oldHeap fun _ hx => h.reserved (.oldHeap hx)) ?_ ?_
  · intro x s ts ts' a a' hx hts ha
    have hself := under_singleton h.unique (h.reserved (.generated hx))
    exact .quantify (.refl _) rfl (by simpa [hself] using hts) (by simpa [hself] using ha)
  · intro a a' ha
    have hself := under_singleton h.unique (h.reserved (.generated .box))
    exact .lambda (.refl _) rfl (by simpa [hself] using ha)

end Hygienic

/-- Names correspond, and bound variables take no reserved ones. -/
structure Names (env : Env) (D : Discipline) (C : String → String → Prop) (v : View) : Prop
    extends Hygienic env v C where
  binders : ∀ x, D.binder x → ¬ Reserved env v x

namespace Names

variable {env : Env} {D : Discipline} {v : View} {C : String → String → Prop}

theorem old (h : Names env D C v) : Names env D C v.old :=
  ⟨h.toHygienic.old, fun x hx hr => h.binders x hx hr.of_old⟩

theorem under (h : Names env D C v) {xs ys : List String} (hxy : Consistent xs ys)
    (hxs : ∀ x ∈ xs, D.binder x) (hys : ∀ y ∈ ys, D.binder y) :
    Names env D (under xs ys C) v :=
  ⟨h.toHygienic.under hxy (fun x hx => h.binders x (hxs x hx)) fun y hy => h.binders y (hys y hy),
    h.binders⟩

/-- Below bound variables that may have their names. -/
theorem below (h : Names env D C v) {bs bs' : List Source.Binder} (hbs : SameBinders bs bs')
    (hD : ∀ b ∈ bs, D.binder b.1) (hD' : ∀ b ∈ bs', D.binder b.1) :
    Names env D (below bs bs' C) v :=
  h.under hbs.names (by simpa using hD) (by simpa using hD')

/-- The variables that a quantifier binds, where its triggers are chosen. -/
theorem bound {bs bs' : List Source.Binder} (h : Names env D (Source.below bs bs' C) v)
    (hbs : SameBinders bs bs') :
    Triggers.Bound (bs.map (·.1)) (bs'.map (·.1)) (Source.below bs bs' C) :=
  ⟨hbs.names.1, mem_iff_of_under, h.unique⟩

end Names

/-! ## Parts of expressions -/

section

variable {env : Env} {D : Discipline} {C : String → String → Prop} {v : View}

/-- Two expressions of one type are lowered to expressions that differ in bound names. -/
structure LowersAlpha (env : Env) (D : Discipline) (C : String → String → Prop)
    (e e' : Source.Expr) : Prop where
  typ : e'.typ = e.typ
  lower : ∀ {v a a'}, Names env D C v → (lowerExpr v e).Returns env a →
    (lowerExpr v e').Returns env a' → IL.Alpha C a a'

theorem lowerExpr?_alpha {o o' : Option Source.Expr} (ho : Option.Rel (LowersAlpha env D C) o o')
    (hv : Names env D C v) {u u' : Option IL.Expr} (hu : (lowerExpr? v o).Returns env u)
    (hu' : (lowerExpr? v o').Returns env u') : Option.Rel (IL.Alpha C) u u' := by
  cases ho with
  | none =>
    simp only [lowerExpr?, ExprM.returns_pure] at hu hu'
    subst hu hu'
    exact .none
  | some h =>
    simp only [lowerExpr?, ExprM.returns_bind, ExprM.returns_pure] at hu hu'
    obtain ⟨a, ha, rfl⟩ := hu
    obtain ⟨a', ha', rfl⟩ := hu'
    exact .some (h.lower hv ha ha')

theorem heapArgs_alpha (hv : Names env D C v) (callee : Function) :
    List.Forall₂ (IL.Alpha C) (heapArgs v callee) (heapArgs v callee) := by
  unfold heapArgs
  split
  · exact .nil
  · exact .cons hv.congruence.heap .nil

theorem receiverArgs_alpha {owner : Option Path} {o o' : Option Source.Expr}
    (ho : Option.Rel (LowersAlpha env D C) o o') (hv : Names env D C v) {us us' : List IL.Expr}
    (hu : (receiverArgs v owner o).Returns env us)
    (hu' : (receiverArgs v owner o').Returns env us') : List.Forall₂ (IL.Alpha C) us us' := by
  cases owner with
  | none =>
    simp only [receiverArgs, ExprM.returns_pure] at hu hu'
    subst hu hu'
    exact .nil
  | some p =>
    cases ho with
    | none =>
      simp only [receiverArgs, lowerReceiver, ExprM.returns_pure] at hu hu'
      subst hu hu'
      exact .cons (.var (hv.reserved .this)) .nil
    | some h =>
      simp only [receiverArgs, lowerReceiver, ExprM.returns_bind, ExprM.returns_pure] at hu hu'
      obtain ⟨a, ha, rfl⟩ := hu
      obtain ⟨a', ha', rfl⟩ := hu'
      exact .cons (h.lower hv ha ha') .nil

theorem lowerArgs_alpha {es es' : List Source.Expr}
    (hes : List.Forall₂ (LowersAlpha env D C) es es') (hv : Names env D C v)
    {ps : List Source.Binder} {us us' : List IL.Expr} (hu : (lowerArgs v ps es).Returns env us)
    (hu' : (lowerArgs v ps es').Returns env us') : List.Forall₂ (IL.Alpha C) us us' := by
  induction hes generalizing ps us us' with
  | nil =>
    simp only [lowerArgs, ExprM.returns_pure] at hu hu'
    subst hu hu'
    exact .nil
  | cons h _ ih =>
    cases ps with
    | nil =>
      simp only [lowerArgs, ExprM.returns_pure] at hu hu'
      subst hu hu'
      exact .nil
    | cons p ps =>
      simp only [lowerArgs, ExprM.returns_bind, ExprM.returns_pure] at hu hu'
      obtain ⟨a, ha, as, has, rfl⟩ := hu
      obtain ⟨a', ha', as', has', rfl⟩ := hu'
      rw [h.typ]
      exact .cons (hv.congruence.convert (h.lower hv ha ha')) (ih has has')

theorem lowerElements_alpha {es es' : List Source.Expr}
    (hes : List.Forall₂ (LowersAlpha env D C) es es') (hv : Names env D C v) {elem : Typ}
    {g : String} {add : IL.Expr → IL.Expr → IL.Expr} (hadd : ∀ a b, add a b = .app g [a, b])
    {acc acc' a a' : IL.Expr} (hacc : IL.Alpha C acc acc')
    (ha : (lowerElements v elem add acc es).Returns env a)
    (ha' : (lowerElements v elem add acc' es').Returns env a') : IL.Alpha C a a' := by
  induction hes generalizing acc acc' with
  | nil =>
    simp only [lowerElements, ExprM.returns_pure] at ha ha'
    subst ha ha'
    exact hacc
  | cons h _ ih =>
    simp only [lowerElements, ExprM.returns_bind, hadd] at ha ha'
    obtain ⟨b, hb, ha⟩ := ha
    obtain ⟨b', hb', ha'⟩ := ha'
    rw [h.typ] at ha'
    exact ih (hv.congruence.app₂ hacc
      (hv.congruence.box (hv.congruence.convert (h.lower hv hb hb')))) ha ha'

theorem lowerEntries_alpha {kvs kvs' : List (Source.Expr × Source.Expr)}
    (hkvs : List.Forall₂ (fun p q => LowersAlpha env D C p.1 q.1 ∧ LowersAlpha env D C p.2 q.2)
      kvs kvs') (hv : Names env D C v) {key value : Typ} {acc acc' a a' : IL.Expr}
    (hacc : IL.Alpha C acc acc') (ha : (lowerEntries v key value acc kvs).Returns env a)
    (ha' : (lowerEntries v key value acc' kvs').Returns env a') : IL.Alpha C a a' := by
  induction hkvs generalizing acc acc' with
  | nil =>
    simp only [lowerEntries, ExprM.returns_pure] at ha ha'
    subst ha ha'
    exact hacc
  | cons h _ ih =>
    simp only [lowerEntries, ExprM.returns_bind] at ha ha'
    obtain ⟨k, hk, b, hb, ha⟩ := ha
    obtain ⟨k', hk', b', hb', ha'⟩ := ha'
    rw [h.1.typ, h.2.typ] at ha'
    exact ih (hv.congruence.app₃ hacc
      (hv.congruence.box (hv.congruence.convert (h.1.lower hv hk hk')))
      (hv.congruence.box (hv.congruence.convert (h.2.lower hv hb hb')))) ha ha'

theorem lowerBindings_alpha {bs bs' : List (String × Source.Expr)}
    (hbs : List.Forall₂ (fun p q => LowersAlpha env D C p.2 q.2) bs bs') (hv : Names env D C v)
    {us us' : List (String × IL.Expr)} (hu : (lowerBindings v bs).Returns env us)
    (hu' : (lowerBindings v bs').Returns env us') :
    us.map (·.1) = bs.map (·.1) ∧ us'.map (·.1) = bs'.map (·.1) ∧
      List.Forall₂ (fun u u' => IL.Alpha C u.2 u'.2) us us' := by
  induction hbs generalizing us us' with
  | nil =>
    simp only [lowerBindings, ExprM.returns_pure] at hu hu'
    subst hu hu'
    exact ⟨rfl, rfl, .nil⟩
  | cons h _ ih =>
    simp only [lowerBindings, ExprM.returns_bind, ExprM.returns_pure] at hu hu'
    obtain ⟨a, ha, as, has, rfl⟩ := hu
    obtain ⟨a', ha', as', has', rfl⟩ := hu'
    obtain ⟨hnames, hnames', hrest⟩ := ih has has'
    exact ⟨by simp [hnames], by simp [hnames'], .cons (h.lower hv ha ha') hrest⟩

theorem lowerTerms_alpha {es es' : List Source.Expr}
    (hes : List.Forall₂ (LowersAlpha env D C) es es') (hv : Names env D C v)
    {us us' : List IL.Expr} (hu : (lowerTerms v es).Returns env us)
    (hu' : (lowerTerms v es').Returns env us') : List.Forall₂ (IL.Alpha C) us us' := by
  induction hes generalizing us us' with
  | nil =>
    simp only [lowerTerms, ExprM.returns_pure] at hu hu'
    subst hu hu'
    exact .nil
  | cons h _ ih =>
    simp only [lowerTerms, ExprM.returns_bind, ExprM.returns_pure] at hu hu'
    obtain ⟨a, ha, as, has, rfl⟩ := hu
    obtain ⟨a', ha', as', has', rfl⟩ := hu'
    exact .cons (h.lower hv ha ha') (ih has has')

theorem lowerTriggers_alpha {ts ts' : List (List Source.Expr)}
    (hts : List.Forall₂ (List.Forall₂ (LowersAlpha env D C)) ts ts') (hv : Names env D C v)
    {us us' : List Trigger} (hu : (lowerTriggers v ts).Returns env us)
    (hu' : (lowerTriggers v ts').Returns env us') :
    List.Forall₂ (List.Forall₂ (IL.Alpha C)) us us' := by
  induction hts generalizing us us' with
  | nil =>
    simp only [lowerTriggers, ExprM.returns_pure] at hu hu'
    subst hu hu'
    exact .nil
  | cons h _ ih =>
    simp only [lowerTriggers, ExprM.returns_bind, ExprM.returns_pure] at hu hu'
    obtain ⟨a, ha, as, has, rfl⟩ := hu
    obtain ⟨a', ha', as', has', rfl⟩ := hu'
    exact .cons (lowerTerms_alpha h hv ha ha') (ih has has')

theorem autoTriggers_alpha {xs ys : List String} (hb : Triggers.Bound xs ys C) {a b : IL.Expr}
    (h : IL.Alpha C a b) {us us' : List Trigger} (hu : (autoTriggers xs a).Returns env us)
    (hu' : (autoTriggers ys b).Returns env us') :
    List.Forall₂ (List.Forall₂ (IL.Alpha C)) us us' := by
  simp only [autoTriggers, ExprM.returns_bind, ExprM.returns_options, ExprM.returns_pure,
    exists_eq_left] at hu hu'
  subst hu hu'
  split
  · exact Triggers.select_alpha hb h
  · exact .nil

theorem chosenTriggers_alpha {xs ys : List String} (hb : Triggers.Bound xs ys C)
    {ts ts' : List (List Source.Expr)}
    (hts : List.Forall₂ (List.Forall₂ (LowersAlpha env D C)) ts ts') (hv : Names env D C v)
    {a b : IL.Expr} (h : IL.Alpha C a b) {us us' : List Trigger}
    (hu : (chosenTriggers v xs ts a).Returns env us)
    (hu' : (chosenTriggers v ys ts' b).Returns env us') :
    List.Forall₂ (List.Forall₂ (IL.Alpha C)) us us' := by
  cases hts with
  | nil => exact autoTriggers_alpha hb h hu hu'
  | cons ht hts => exact lowerTriggers_alpha (.cons ht hts) hv hu hu'

/-! ### Binders -/

theorem sortBinders_sorts {bs bs' : List Source.Binder} (h : SameBinders bs bs') :
    (sortBinders bs).map (·.2) = (sortBinders bs').map (·.2) := by
  simpa [sortBinders, List.map_map, Function.comp_def] using congrArg (List.map Typ.sort) h.types

theorem bindersWhere_alpha {bs bs' : List Source.Binder} (hbs : SameBinders bs bs')
    (hv : Names env D (below bs bs' C) v) {w w' : IL.Expr}
    (hw : (bindersWhere v.heap bs).Returns env w)
    (hw' : (bindersWhere v.heap bs').Returns env w') : IL.Alpha (below bs bs' C) w w' :=
  hv.congruence.bindersWhere hv.congruence.heap
    ((hbs.forall₂ C).imp fun _ _ h => ⟨h.1, .var h.2⟩) hw hw'

/-- Quantifiers over corresponding variables. -/
theorem quantify_alpha {q : IL.Quantifier} {bs bs' : List Source.Binder}
    (hbs : SameBinders bs bs') {ts ts' : List Trigger} {a b : IL.Expr}
    (hts : List.Forall₂ (List.Forall₂ (IL.Alpha (below bs bs' C))) ts ts')
    (h : IL.Alpha (below bs bs' C) a b) :
    IL.Alpha C (.quantify q (sortBinders bs) ts a) (.quantify q (sortBinders bs') ts' b) :=
  .quantify (by simpa using hbs.names) (sortBinders_sorts hbs) (by simpa using hts)
    (by simpa using h)

theorem quantMatrix_alpha {q : Source.Quantifier} {w w' b b' : IL.Expr} {r r' : Option IL.Expr}
    (hw : IL.Alpha C w w') (hr : Option.Rel (IL.Alpha C) r r') (hb : IL.Alpha C b b') :
    IL.Alpha C (quantMatrix q w r b) (quantMatrix q w' r' b') := by
  have hrange : IL.Alpha C (r.getD .tt) (r'.getD .tt) := by
    cases hr with
    | none => exact .bool true
    | some h => exact h
  cases q with
  | all => exact .imp (.conj (.cons hw (.cons hrange .nil))) hb
  | ex => exact .conj (.cons hw (.cons hrange (.cons hb .nil)))

theorem letUnboxed_alpha (hv : Names env D C v) {b b' : Source.Binder} (hb : b'.2 = b.2)
    {a a' : IL.Expr} (ha : IL.Alpha (below [b] [b'] C) a a') :
    IL.Alpha C (letUnboxed b a) (letUnboxed b' a') := by
  have hbox : IL.Alpha C (.var Naming.boxVar) (.var Naming.boxVar) :=
    .var (hv.reserved (.generated .box))
  refine .lets (.singleton _ _) (.cons ?_ .nil) ha
  rw [hb]
  exact hv.congruence.unbox hbox

/-- Whether a set comprehension collects its variable does not depend on names. -/
theorem collectsBinder_alpha {x y : String} (hC : Relator.BiUnique C) (hxy : C x y)
    {t t' : Option Source.Expr} (ht : Option.Rel (Source.Alpha C) t t') :
    collectsBinder x t = collectsBinder y t' := by
  cases ht with
  | none => rfl
  | some h =>
    cases h with
    | @var _ _ _ x' y' _ h =>
      have heq : x = x' ↔ y = y' :=
        ⟨fun hx => hC.2 (hx ▸ hxy) h, fun hy => hC.1 (hy ▸ hxy) h⟩
      simp only [collectsBinder]
      rw [Bool.eq_iff_iff, beq_iff_eq, beq_iff_eq, heq]
    | _ => rfl

theorem setPredicate_alpha {i i' : Info} (hi : i'.typ = i.typ) {bs bs' : List Source.Binder}
    (hbs : SameBinders bs bs') (hv : Names env D C v) (hinner : Names env D (below bs bs' C) v)
    {t t' : Option Source.Expr} (ht : Option.Rel (Source.Alpha (below bs bs' C)) t t')
    (ih : Option.Rel (LowersAlpha env D (below bs bs' C)) t t') {w w' r r' p p' : IL.Expr}
    (hw : IL.Alpha (below bs bs' C) w w') (hr : IL.Alpha (below bs bs' C) r r')
    (hp : (setPredicate v i bs t w r).Returns env p)
    (hp' : (setPredicate v i' bs' t' w' r').Returns env p') : IL.Alpha C p p' := by
  have hsame := hbs.forall₂ C
  have hcollects : ∀ b b', bs = [b] → bs' = [b'] →
      collectsBinder b.1 t = collectsBinder b'.1 t' := by
    rintro b b' rfl rfl
    exact collectsBinder_alpha hinner.unique (List.forall₂_cons.1 hsame).1.2 ht
  unfold setPredicate at hp hp'
  split at hp
  · rename_i b hb
    obtain ⟨b', hb', rfl⟩ : ∃ b', b'.2 = b.2 ∧ bs' = [b'] := by
      rcases hsame with _ | ⟨hb', _ | _⟩
      exact ⟨_, hb'.1, rfl⟩
    rw [List.headD_cons, hcollects b b' rfl rfl] at hb
    simp only [List.headD_cons, hb, ExprM.returns_pure] at hp hp'
    subst hp hp'
    exact letUnboxed_alpha hv hb' (.conj (.cons hw (.cons hr .nil)))
  · rename_i bs _ _ hother
    split at hp'
    · rename_i b' hb'
      obtain ⟨b, rfl⟩ : ∃ b, bs = [b] := by
        rcases hsame with _ | ⟨_, _ | _⟩
        exact ⟨_, rfl⟩
      rw [List.headD_cons, ← hcollects b b' rfl rfl] at hb'
      exact absurd hb' (hother b rfl)
    · rename_i bs' _ _ _
      cases ih with
      | none => simp at hp
      | @some e e' h =>
        simp only [ExprM.returns_bind, exAuto, ExprM.returns_pure, sortBinders_names, hi] at hp hp'
        obtain ⟨elem, helem, x, hx, ts, hts, rfl⟩ := hp
        obtain ⟨elem', helem', x', hx', ts', hts', rfl⟩ := hp'
        obtain rfl := helem.unique helem'
        rw [h.typ] at hts' ⊢
        have hbox : IL.Alpha (below bs bs' C) (.var Naming.boxVar) (.var Naming.boxVar) :=
          .var (hinner.reserved (.generated .box))
        have hmember := hinner.congruence.box (t := elem) (hinner.congruence.convert
          (s := e.typ) (t := elem) (h.lower hinner hx hx'))
        have hmatrix := IL.Alpha.conj (.cons hw (.cons hr (.cons (hbox.eq hmember) .nil)))
        exact quantify_alpha hbs (autoTriggers_alpha (hinner.bound hbs) hmatrix hts hts') hmatrix

/-- The bindings of corresponding match cases. -/
theorem caseBindings_alpha {d : Datatype} {dt : Path} {p q : Pattern} {k : Ctor}
    (hk : d.ctor p.ctor = .ok k) (hctor : q.ctor = p.ctor) (hbs : SameBinders p.binders q.binders)
    (hfits : p.binders.length ≤ k.fields.length) {a a' : IL.Expr} (ha : IL.Alpha C a a')
    {us us' : List (String × IL.Expr)} (hu : (caseBindings d dt p a).Returns env us)
    (hu' : (caseBindings d dt q a').Returns env us') :
    us.map (·.1) = p.binders.map (·.1) ∧ us'.map (·.1) = q.binders.map (·.1) ∧
      List.Forall₂ (fun u u' => IL.Alpha C u.2 u'.2) us us' := by
  simp only [caseBindings, ExprM.returns_bind, ExprM.returns_ofExcept, ExprM.returns_pure,
    hctor, hk, Except.ok.injEq, exists_eq_left'] at hu hu'
  subst hu hu'
  have hlen : p.binders.length = q.binders.length := by simpa using hbs.names.1
  have names (bs : List Source.Binder) (h : bs.length ≤ k.fields.length) :
      ((bs.zip k.fields).map fun u => (u.1.1, Boxing.convert u.2.2 u.1.2 (IL.Expr.app
        (Naming.destructor dt p.ctor u.2.1) [a]))).map (·.1) = bs.map (·.1) := by
    conv_rhs => rw [← List.map_fst_zip h, List.map_map]
    rw [List.map_map]
    rfl
  refine ⟨names _ hfits, ?_, ?_⟩
  · have hnames := names q.binders (hlen ▸ hfits)
    simpa only [List.map_map, Function.comp_def] using hnames
  · rw [List.forall₂_map_left_iff, List.forall₂_map_right_iff]
    have hsame := hbs.forall₂ C
    generalize below p.binders q.binders C = C' at hsame
    generalize p.binders = bs at hsame
    generalize q.binders = bs' at hsame
    generalize k.fields = fs
    induction hsame generalizing fs with
    | nil => exact .nil
    | cons hb _ ih =>
      cases fs with
      | nil => exact .nil
      | cons f fs =>
        refine .cons ?_ (ih fs)
        rw [hb.1]
        exact (Compatible.alpha C).convert ((Compatible.alpha C).app₁ ha)

/-- Two match cases with the same constructor and corresponding variables. -/
structure SameArm (env : Env) (D : Discipline) (C : String → String → Prop) (d : Datatype)
    (p q : Pattern × Source.Expr) : Prop where
  ctor : q.1.ctor = p.1.ctor
  fits : ∃ k, d.ctor p.1.ctor = .ok k ∧ p.1.binders.length ≤ k.fields.length
  binders : SameBinders p.1.binders q.1.binders
  left : ∀ b ∈ p.1.binders, D.binder b.1
  right : ∀ b ∈ q.1.binders, D.binder b.1
  body : LowersAlpha env D (below p.1.binders q.1.binders C) p.2 q.2

theorem lowerArms_alpha {d : Datatype} {dt : Path} {arms arms' : List (Pattern × Source.Expr)}
    (harms : List.Forall₂ (SameArm env D C d) arms arms') (hv : Names env D C v) {a a' : IL.Expr}
    (ha : IL.Alpha C a a') {result : Typ} {o o' : Option IL.Expr}
    (ho : (lowerArms v d dt a result arms).Returns env o)
    (ho' : (lowerArms v d dt a' result arms').Returns env o') :
    Option.Rel (IL.Alpha C) o o' := by
  induction harms generalizing o o' with
  | nil =>
    simp only [lowerArms, ExprM.returns_pure] at ho ho'
    subst ho ho'
    exact .none
  | @cons p q arms arms' h _ ih =>
    simp only [lowerArms, ExprM.returns_bind] at ho ho'
    obtain ⟨rest, hrest, us, hus, b, hb, ho⟩ := ho
    obtain ⟨rest', hrest', us', hus', b', hb', ho'⟩ := ho'
    obtain ⟨k, hk, hfits⟩ := h.fits
    obtain ⟨hnames, hnames', hvalues⟩ :=
      caseBindings_alpha hk h.ctor h.binders hfits ha hus hus'
    have hinner := hv.below h.binders h.left h.right
    have harm : IL.Alpha C (.lets us (Boxing.convert p.2.typ result b))
        (.lets us' (Boxing.convert q.2.typ result b')) := by
      rw [h.body.typ]
      refine .lets (by rw [hnames, hnames']; exact h.binders.names) hvalues ?_
      rw [hnames, hnames']
      exact hinner.congruence.convert (h.body.lower hinner hb hb')
    cases ih hrest hrest' with
    | none =>
      simp only [ExprM.returns_pure] at ho ho'
      subst ho ho'
      exact .some harm
    | some hothers =>
      simp only [ExprM.returns_pure] at ho ho'
      subst ho ho'
      rw [h.ctor]
      exact .some (.cond (hv.congruence.app₁ ha) harm hothers)

/-! ## Expressions -/

theorem option_rel {α β : Type} {R : α → β → Prop} {o : Option α} {o' : Option β}
    (h : o.isSome = o'.isSome) (hR : ∀ a ∈ o, ∀ b ∈ o', R a b) : Option.Rel R o o' := by
  cases o with
  | none =>
    cases o' with
    | none => exact .none
    | some b => cases h
  | some a =>
    cases o' with
    | none => cases h
    | some b => exact .some (hR a rfl b rfl)

/-- Lowering relates expressions that differ in bound names, if no binder has a reserved name. -/
theorem lowerExpr_alpha {hasThis hasThis' : Bool} {e e' : Source.Expr}
    (h : Source.Alpha C e e') {Γ Γ' : Typing} (he : WellTyped env.context D hasThis Γ e)
    (he' : WellTyped env.context D hasThis' Γ' e') : LowersAlpha env D C e e' := by
  induction h generalizing Γ Γ' with
  | @bool _ _ _ b ht =>
    refine ⟨ht, fun hv ha ha' => ?_⟩
    simp only [lowerExpr, ExprM.returns_pure] at ha ha'
    subst ha ha'
    exact .bool b
  | int ht =>
    refine ⟨ht, fun hv ha ha' => ?_⟩
    simp only [lowerExpr, ExprM.returns_pure] at ha ha'
    subst ha ha'
    unfold intConst
    split
    · exact hv.congruence.multi₂ (hv.congruence.nat 0) (hv.congruence.nat _)
    · exact hv.congruence.nat _
  | null ht =>
    refine ⟨ht, fun hv ha ha' => ?_⟩
    simp only [lowerExpr, ExprM.returns_pure] at ha ha'
    subst ha ha'
    exact hv.congruence.null
  | var ht hxy =>
    refine ⟨ht, fun hv ha ha' => ?_⟩
    simp only [lowerExpr, ExprM.returns_pure] at ha ha'
    subst ha ha'
    exact .var hxy
  | this ht =>
    refine ⟨ht, fun hv ha ha' => ?_⟩
    simp only [lowerExpr, ExprM.returns_pure] at ha ha'
    subst ha ha'
    exact .var (hv.reserved .this)
  | field ht _ ih =>
    cases he with | field _ _ _ he =>
    cases he' with | field _ _ _ he' =>
    refine ⟨ht, fun hv ha ha' => ?_⟩
    simp only [lowerExpr, ExprM.returns_bind, ExprM.returns_field, Heap.returns_fieldHandle,
      ExprM.returns_pure, exists_eq_left] at ha ha'
    obtain ⟨fld, hfld, o, ho, rfl⟩ := ha
    obtain ⟨fld', hfld', o', ho', rfl⟩ := ha'
    obtain rfl : fld = fld' := Except.ok.inj (hfld.symm.trans hfld')
    have hid : env.context.field fld.id = .ok fld := by rw [Context.id_of_field hfld]; exact hfld
    rw [ht]
    exact hv.congruence.convert
      (hv.congruence.readField hid ((ih he he').lower hv ho ho'))
  | index ht _ _ iha ihb =>
    cases he with | index _ ha hb =>
    cases he' with | index _ ha' hb' =>
    have iha := iha ha ha'
    have ihb := ihb hb hb'
    refine ⟨ht, fun hv hc hc' => ?_⟩
    simp only [lowerExpr, ExprM.returns_bind] at hc hc'
    obtain ⟨x, hx, y, hy, hc⟩ := hc
    obtain ⟨x', hx', y', hy', hc'⟩ := hc'
    rw [iha.typ, ihb.typ, ht] at hc'
    exact hv.congruence.lowerIndex (iha.lower hv hx hx') (ihb.lower hv hy hy') hc hc'
  | slice ht _ hlo _ hhi _ ih ihlo ihhi =>
    cases he with | slice _ _ _ he hlos hhis =>
    cases he' with | slice _ _ _ he' hlos' hhis' =>
    have ih := ih he he'
    refine ⟨ht, fun hv hc hc' => ?_⟩
    simp only [lowerExpr, ExprM.returns_bind, ExprM.returns_pure] at hc hc'
    obtain ⟨x, hx, l, hl, u, hu, rfl⟩ := hc
    obtain ⟨x', hx', l', hl', u', hu', rfl⟩ := hc'
    have hx := ih.lower hv hx hx'
    have hl := lowerExpr?_alpha (option_rel hlo fun a ha b hb =>
      ihlo a ha b hb (hlos a ha) (hlos' b hb)) hv hl hl'
    have hu := lowerExpr?_alpha (option_rel hhi fun a ha b hb =>
      ihhi a ha b hb (hhis a ha) (hhis' b hb)) hv hu hu'
    rw [ih.typ]
    refine hv.congruence.seqSlice ?_ hl hu
    split
    · exact hv.congruence.app₂ hv.congruence.heap hx
    · exact hx
  | update ht _ _ _ iha ihb ihc =>
    cases he with | update _ _ ha hb hc =>
    cases he' with | update _ _ ha' hb' hc' =>
    have iha := iha ha ha'
    have ihb := ihb hb hb'
    have ihc := ihc hc hc'
    refine ⟨ht, fun hv hd hd' => ?_⟩
    simp only [lowerExpr, ExprM.returns_bind] at hd hd'
    obtain ⟨x, hx, y, hy, z, hz, hd⟩ := hd
    obtain ⟨x', hx', y', hy', z', hz', hd'⟩ := hd'
    rw [iha.typ, ihc.typ] at hd'
    exact hv.congruence.lowerUpdate (iha.lower hv hx hx') (ihb.lower hv hy hy')
      (ihc.lower hv hz hz') hd hd'
  | arrayLength ht _ ih =>
    cases he with | arrayLength _ _ he =>
    cases he' with | arrayLength _ _ he' =>
    refine ⟨ht, fun hv ha ha' => ?_⟩
    simp only [lowerExpr, ExprM.returns_bind, Heap.returns_arrayLength] at ha ha'
    obtain ⟨x, hx, rfl⟩ := ha
    obtain ⟨x', hx', rfl⟩ := ha'
    exact hv.congruence.app₁ ((ih he he').lower hv hx hx')
  | @display C i i' kind es es' ht hlen _ ih =>
    cases he with | display _ _ hes =>
    cases he' with | display _ _ hes' =>
    have hall : List.Forall₂ (LowersAlpha env D _) es es' :=
      Triggers.forall₂_of_zip hlen fun a b hab =>
        ih a b hab (hes a (List.of_mem_zip hab).1) (hes' b (List.of_mem_zip hab).2)
    refine ⟨ht, fun hv ha ha' => ?_⟩
    simp only [lowerExpr, ExprM.returns_bind] at ha ha'
    obtain ⟨t, ht₁, ha⟩ := ha
    obtain ⟨t', ht₂, ha'⟩ := ha'
    rw [ht] at ht₂
    obtain rfl := ht₁.unique ht₂
    have hempty : IL.Alpha C (displayOps kind).1 (displayOps kind).1 := by
      cases kind <;> exact hv.congruence.const (by simp [preludeConstants])
    cases kind <;> exact lowerElements_alpha hall hv (fun _ _ => rfl) hempty ha ha'
  | @mapDisplay _ i i' kvs kvs' ht hlen _ _ ihk ihv =>
    cases he with | mapDisplay _ _ hkeys hvalues =>
    cases he' with | mapDisplay _ _ hkeys' hvalues' =>
    have hall : List.Forall₂ (fun p q => LowersAlpha env D _ p.1 q.1 ∧ LowersAlpha env D _ p.2 q.2)
        kvs kvs' :=
      Triggers.forall₂_of_zip hlen fun p q hpq => by
        obtain ⟨hp, hq⟩ := List.of_mem_zip hpq
        exact ⟨ihk p q hpq (hkeys p hp) (hkeys' q hq), ihv p q hpq (hvalues p hp) (hvalues' q hq)⟩
    refine ⟨ht, fun hv ha ha' => ?_⟩
    simp only [lowerExpr, ExprM.returns_bind] at ha ha'
    obtain ⟨t, ht₁, ha⟩ := ha
    obtain ⟨t', ht₂, ha'⟩ := ha'
    rw [ht] at ht₂
    obtain rfl := ht₁.unique ht₂
    exact lowerEntries_alpha hall hv (hv.congruence.const (by simp [preludeConstants])) ha ha'
  | @ctor _ i i' dt k es es' ht hlen _ ih =>
    cases he with | ctor _ _ _ _ hes =>
    cases he' with | ctor _ _ _ _ hes' =>
    have hall : List.Forall₂ (LowersAlpha env D _) es es' :=
      Triggers.forall₂_of_zip hlen fun a b hab =>
        ih a b hab (hes a (List.of_mem_zip hab).1) (hes' b (List.of_mem_zip hab).2)
    refine ⟨ht, fun hv ha ha' => ?_⟩
    simp only [lowerExpr, ExprM.returns_bind, ExprM.returns_datatype, ExprM.returns_ofExcept,
      ExprM.returns_pure] at ha ha'
    obtain ⟨d, hd, k, hk, us, hus, rfl⟩ := ha
    obtain ⟨d', hd', k', hk', us', hus', rfl⟩ := ha'
    obtain rfl : d = d' := Except.ok.inj (hd.symm.trans hd')
    obtain rfl : k = k' := Except.ok.inj (hk.symm.trans hk')
    exact hv.congruence.app (lowerArgs_alpha hall hv hus hus')
  | destruct ht _ ih =>
    cases he with | destruct _ _ _ _ _ he =>
    cases he' with | destruct _ _ _ _ _ he' =>
    refine ⟨ht, fun hv ha ha' => ?_⟩
    simp only [lowerExpr, ExprM.returns_bind, ExprM.returns_datatype, ExprM.returns_ofExcept,
      ExprM.returns_pure] at ha ha'
    obtain ⟨d, hd, k, hk, fld, hfld, x, hx, rfl⟩ := ha
    obtain ⟨d', hd', k', hk', fld', hfld', x', hx', rfl⟩ := ha'
    obtain rfl : d = d' := Except.ok.inj (hd.symm.trans hd')
    obtain rfl : k = k' := Except.ok.inj (hk.symm.trans hk')
    obtain rfl : fld = fld' := Except.ok.inj (hfld.symm.trans hfld')
    rw [ht]
    exact hv.congruence.convert (hv.congruence.app₁ ((ih he he').lower hv hx hx'))
  | isCtor ht _ ih =>
    cases he with | isCtor _ _ _ _ he =>
    cases he' with | isCtor _ _ _ _ he' =>
    refine ⟨ht, fun hv ha ha' => ?_⟩
    simp only [lowerExpr, ExprM.returns_bind, ExprM.returns_pure] at ha ha'
    obtain ⟨x, hx, rfl⟩ := ha
    obtain ⟨x', hx', rfl⟩ := ha'
    exact hv.congruence.app₁ ((ih he he').lower hv hx hx')
  | old ht _ ih =>
    cases he with | old _ he =>
    cases he' with | old _ he' =>
    refine ⟨ht, fun hv ha ha' => ?_⟩
    simp only [lowerExpr] at ha ha'
    exact (ih he he').lower hv.old ha ha'
  | fresh ht _ ih =>
    cases he with | fresh _ _ he =>
    cases he' with | fresh _ _ he' =>
    have ih := ih he he'
    refine ⟨ht, fun hv ha ha' => ?_⟩
    simp only [lowerExpr, ExprM.returns_bind, ExprM.returns_pure] at ha ha'
    obtain ⟨x, hx, rfl⟩ := ha
    obtain ⟨x', hx', rfl⟩ := ha'
    rw [ih.typ]
    exact hv.congruence.lowerFresh _ (ih.lower hv hx hx')
  | @unary _ i i' op e e' ht _ ih =>
    cases he with | unary _ he =>
    cases he' with | unary _ he' =>
    have ih := ih he he'
    refine ⟨ht, fun hv ha ha' => ?_⟩
    cases op with
    | not =>
      simp only [lowerExpr, ExprM.returns_bind, ExprM.returns_pure] at ha ha'
      obtain ⟨x, hx, rfl⟩ := ha
      obtain ⟨x', hx', rfl⟩ := ha'
      exact (ih.lower hv hx hx').neg
    | neg =>
      simp only [lowerExpr, ExprM.returns_bind, ExprM.returns_pure] at ha ha'
      obtain ⟨x, hx, rfl⟩ := ha
      obtain ⟨x', hx', rfl⟩ := ha'
      exact hv.congruence.multi₂ (hv.congruence.nat 0) (ih.lower hv hx hx')
    | card =>
      simp only [lowerExpr, ExprM.returns_bind, ExprM.returns_pure] at ha ha'
      obtain ⟨size, hsize, x, hx, rfl⟩ := ha
      obtain ⟨size', hsize', x', hx', rfl⟩ := ha'
      rw [ih.typ] at hsize'
      exact hv.congruence.lowerCard (ih.lower hv hx hx') hsize hsize'
  | binary ht _ _ iha ihb =>
    cases he with | binary _ ha hb =>
    cases he' with | binary _ ha' hb' =>
    have iha := iha ha ha'
    have ihb := ihb hb hb'
    refine ⟨ht, fun hv hc hc' => ?_⟩
    simp only [lowerExpr, ExprM.returns_bind] at hc hc'
    obtain ⟨x, hx, y, hy, hc⟩ := hc
    obtain ⟨x', hx', y', hy', hc'⟩ := hc'
    rw [iha.typ, ihb.typ] at hc'
    exact hv.congruence.lowerBinary (iha.lower hv hx hx') (ihb.lower hv hy hy') hc hc'
  | @quant C i i' q bs bs' r r' e e' ts ts' ind ind' ht hbs hr _ _ hlen hlens _ ihr ihe ihts =>
    cases he with | quant _ hD _ _ hrs he htts =>
    cases he' with | quant _ hD' _ _ hrs' he' htts' =>
    have htriggers : List.Forall₂ (List.Forall₂ (LowersAlpha env D (below bs bs' C))) ts ts' :=
      Triggers.forall₂_of_zip hlen fun t t' htt' =>
        Triggers.forall₂_of_zip (hlens t t' htt') fun a b hab =>
          ihts t t' htt' a b hab
            (htts t (List.of_mem_zip htt').1 a (List.of_mem_zip hab).1)
            (htts' t' (List.of_mem_zip htt').2 b (List.of_mem_zip hab).2)
    refine ⟨ht, fun hv ha ha' => ?_⟩
    have hinner := hv.below hbs (fun b hb => (hD b hb).1) fun b hb => (hD' b hb).1
    obtain ⟨w, hw, u, hu, x, hx, us, hus, rfl⟩ := returns_lowerExpr_quant.1 ha
    obtain ⟨w', hw', u', hu', x', hx', us', hus', rfl⟩ := returns_lowerExpr_quant.1 ha'
    have hmatrix : IL.Alpha (below bs bs' C) (quantMatrix q w u x) (quantMatrix q w' u' x') :=
      quantMatrix_alpha (bindersWhere_alpha hbs hinner hw hw')
        (lowerExpr?_alpha (option_rel hr fun a ha b hb =>
          ihr a ha b hb (hrs a ha) (hrs' b hb)) hinner hu hu')
        ((ihe he he').lower hinner hx hx')
    exact quantify_alpha hbs (chosenTriggers_alpha (hinner.bound hbs) htriggers hinner hmatrix
      hus hus') hmatrix
  | @setComp C i i' bs bs' r r' t t' ht hbs _ hterm hterms ihr iht =>
    cases he with | setComp _ hD _ _ _ _ hr htt =>
    cases he' with | setComp _ hD' _ _ _ _ hr' htt' =>
    refine ⟨ht, fun hv ha ha' => ?_⟩
    have hinner := hv.below hbs (fun b hb => (hD b hb).1) fun b hb => (hD' b hb).1
    obtain ⟨w, hw, x, hx, p, hp, rfl⟩ := returns_lowerExpr_setComp.1 ha
    obtain ⟨w', hw', x', hx', p', hp', rfl⟩ := returns_lowerExpr_setComp.1 ha'
    refine hv.congruence.app₁ (hv.congruence.boxes (setPredicate_alpha ht hbs hv hinner
      (option_rel hterm hterms) (option_rel hterm fun a ha b hb =>
        iht a ha b hb (htt a ha) (htt' b hb)) ?_ ?_ hp hp'))
    · exact bindersWhere_alpha hbs hinner hw hw'
    · exact (ihr hr hr').lower hinner hx hx'
  | @mapComp C i i' b b' r r' t t' ht hb _ _ ihr iht =>
    cases he with | mapComp hD _ _ _ hr htt =>
    cases he' with | mapComp hD' _ _ _ hr' htt' =>
    have hbs : SameBinders [b] [b'] := ⟨by simp [hb], .singleton _ _⟩
    have iht := iht htt htt'
    refine ⟨ht, fun hv ha ha' => ?_⟩
    have hinner := hv.below hbs (List.forall_mem_singleton.2 hD.1)
      (List.forall_mem_singleton.2 hD'.1)
    simp only [lowerExpr, ExprM.returns_bind, ExprM.returns_pure] at ha ha'
    obtain ⟨kt, hkt, w, hw, x, hx, y, hy, rfl⟩ := ha
    obtain ⟨kt', hkt', w', hw', x', hx', y', hy', rfl⟩ := ha'
    rw [ht] at hkt'
    obtain rfl := hkt.unique hkt'
    rw [iht.typ]
    refine hv.congruence.app₂ (hv.congruence.app₁ (hv.congruence.boxes
      (letUnboxed_alpha hv hb ?_))) (hv.congruence.boxes (letUnboxed_alpha hv hb ?_))
    · exact .conj (.cons (bindersWhere_alpha hbs hinner hw hw')
        (.cons ((ihr hr hr').lower hinner hx hx') .nil))
    · exact hinner.congruence.box (hinner.congruence.convert (iht.lower hinner hy hy'))
  | @letIn C i i' us vs e e' ht hnames _ _ ihvalues ihe =>
    cases he with | letIn hD _ hbs he =>
    cases he' with | letIn hD' _ hbs' he' =>
    have hlen : us.length = vs.length := by simpa using hnames.1
    have hvalues : List.Forall₂ (fun u v => LowersAlpha env D C u.2 v.2) us vs :=
      Triggers.forall₂_of_zip hlen fun u v huv =>
        ihvalues u v huv (hbs u (List.of_mem_zip huv).1) (hbs' v (List.of_mem_zip huv).2)
    refine ⟨ht, fun hv ha ha' => ?_⟩
    have hinner := hv.under hnames (by simpa using hD) (by simpa using hD')
    simp only [lowerExpr, ExprM.returns_bind, ExprM.returns_pure] at ha ha'
    obtain ⟨as, has, x, hx, rfl⟩ := ha
    obtain ⟨as', has', x', hx', rfl⟩ := ha'
    obtain ⟨has₁, has₂, hrel⟩ := lowerBindings_alpha hvalues hv has has'
    refine .lets (by rw [has₁, has₂]; exact hnames) hrel ?_
    rw [has₁, has₂]
    exact (ihe he he').lower hinner hx hx'
  | ite ht _ _ _ iha ihb ihc =>
    cases he with | ite _ _ ha hb hc =>
    cases he' with | ite _ _ ha' hb' hc' =>
    have iha := iha ha ha'
    have ihb := ihb hb hb'
    have ihc := ihc hc hc'
    refine ⟨ht, fun hv hd hd' => ?_⟩
    simp only [lowerExpr, ExprM.returns_bind, ExprM.returns_pure] at hd hd'
    obtain ⟨x, hx, y, hy, z, hz, rfl⟩ := hd
    obtain ⟨x', hx', y', hy', z', hz', rfl⟩ := hd'
    rw [ihb.typ, ihc.typ, ht]
    exact .cond (iha.lower hv hz hz') (hv.congruence.convert (ihb.lower hv hx hx'))
      (hv.congruence.convert (ihc.lower hv hy hy'))
  | @cases C i i' e e' arms arms' ht _ hlen hctor hbs _ ihe iharms =>
    cases he with | @cases _ _ _ _ dt ts d hd hvalue _ hpatterns hnames _ he harms =>
    cases he' with | cases _ _ _ _ hnames' _ he' harms' =>
    have ihe := ihe he he'
    have hall : List.Forall₂ (SameArm env D C d) arms arms' :=
      Triggers.forall₂_of_zip hlen fun p q hpq => by
        obtain ⟨hp, hq⟩ := List.of_mem_zip hpq
        obtain ⟨k, hk, hfits⟩ := hpatterns p hp
        exact ⟨hctor p q hpq, ⟨k, hk, Nat.le_of_eq hfits.length_eq⟩, hbs p q hpq, hnames p hp, hnames' q hq,
          iharms p q hpq (harms p hp) (harms' q hq)⟩
    refine ⟨ht, fun hv ha ha' => ?_⟩
    obtain ⟨x, hx, dt₁, hdt₁, d₁, hd₁, ha⟩ := returns_lowerExpr_cases.1 ha
    obtain ⟨x', hx', dt₂, hdt₂, d₂, hd₂, ha'⟩ := returns_lowerExpr_cases.1 ha'
    rw [ihe.typ] at hdt₂
    obtain rfl := hdt₁.unique (returns_matchedDatatype.2 ⟨ts, hvalue⟩)
    obtain rfl := hdt₁.unique hdt₂
    obtain rfl : d = d₁ := Except.ok.inj (hd.symm.trans hd₁)
    obtain rfl : d = d₂ := Except.ok.inj (hd.symm.trans hd₂)
    rw [ht] at ha'
    cases lowerArms_alpha hall hv (ihe.lower hv hx hx') ha ha' with
    | some h => exact h
  | @call C i i' f r r' es es' ht hr _ hlen _ ihr ihes =>
    cases he with | call _ _ _ _ _ hrs hes =>
    cases he' with | call _ _ _ _ _ hrs' hes' =>
    have hall : List.Forall₂ (LowersAlpha env D _) es es' :=
      Triggers.forall₂_of_zip hlen fun a b hab =>
        ihes a b hab (hes a (List.of_mem_zip hab).1) (hes' b (List.of_mem_zip hab).2)
    refine ⟨ht, fun hv ha ha' => ?_⟩
    obtain ⟨callee, hcallee, layer, hlayer, us, hus, ws, hws, rfl⟩ := returns_lowerExpr_call.1 ha
    obtain ⟨callee', hcallee', layer', hlayer', us', hus', ws', hws', rfl⟩ :=
      returns_lowerExpr_call.1 ha'
    obtain rfl : callee = callee' := Except.ok.inj (hcallee.symm.trans hcallee')
    obtain rfl := hlayer.unique hlayer'
    have hrecv := receiverArgs_alpha (option_rel hr fun a ha b hb =>
      ihr a ha b hb (hrs a ha) (hrs' b hb)) hv hus hus'
    rw [ht]
    exact hv.congruence.convert (hv.congruence.app (List.rel_append
      (List.rel_append (heapArgs_alpha hv callee) hrecv)
      (lowerArgs_alpha hall hv hws hws')))

end

/-! ## Names of the source -/

/-- Names that hold none of the characters that mark generated names, as identifiers do. -/
def Naming.Plain (x : String) : Prop := ∀ c ∈ x.toList, c ≠ '$' ∧ c ≠ '%' ∧ c ≠ '/'

/-- The names of heaps are generated ones, and heaps have no triggers. -/
structure View.Marked (v : View) : Prop where
  heap : v.heap.ren id = v.heap
  oldHeap : v.oldHeap.ren id = v.oldHeap
  names : ∀ x ∈ v.heap.names ++ v.oldHeap.names, ¬ Naming.Plain x

/-- Bound variables have names of the source, but not those of the receiver, of a field or of a
constant of the heap model or of collections. -/
def Source.Discipline.identifiers (env : Env) (v : View) : Discipline :=
  ⟨fun x => Naming.Plain x ∧ x ∉ preludeConstants ∧ x ≠ v.this.getD Naming.this ∧
      ∀ f, env.context.field f.id = .ok f → x ≠ (env.handle f).name,
    fun _ _ => True⟩

/-- The names that lowered expressions mention beside those are no names of the source. -/
theorem not_reserved_of_identifier {env : Env} {v : View} (hv : v.Marked) {x : String}
    (hx : (Discipline.identifiers env v).binder x) : ¬ Reserved env v x := by
  obtain ⟨hplain, hconst, hthis, hfield⟩ := hx
  have marked {y : String} {c : Char} (hc : c ∈ y.toList) (h : c = '$' ∨ c = '%')
      (hy : Naming.Plain y) : False := by
    obtain ⟨h₁, h₂, -⟩ := hy c hc
    exact h.elim h₁ h₂
  intro h
  cases h with
  | const h => exact hconst h
  | cls p => exact marked (c := '%') (by simp [Naming.cls]) (.inr rfl) hplain
  | field h => exact hfield _ h rfl
  | this => exact hthis rfl
  | heap h => exact hv.names x (List.mem_append_left _ h) hplain
  | oldHeap h => exact hv.names x (List.mem_append_right _ h) hplain
  | generated h =>
    cases h with
    | box => exact marked (c := '$') (by decide) (.inl rfl) hplain
    | boxAt d =>
      exact marked (c := '$') (by simp [WhereClause.boxVar, Naming.boxVar]) (.inl rfl) hplain
    | indexAt d =>
      exact marked (c := '$') (by simp [WhereClause.indexVar, Naming.indexVar]) (.inl rfl) hplain

/-- Well-typed expressions that differ in bound names are lowered, and what they are lowered to
differs in bound names. -/
theorem lowering_alpha {env : Env} {v : View} (hv : v.Marked) {hasThis : Bool} {Γ : Typing}
    {e e' : Source.Expr} (he : WellTyped env.context (.identifiers env v) hasThis Γ e)
    (he' : WellTyped env.context (.identifiers env v) hasThis Γ e') (h : e.AlphaEq e') :
    ∃ a a', (lowerExpr v e).Returns env a ∧ (lowerExpr v e').Returns env a' ∧ a.AlphaEq a' := by
  obtain ⟨a, ha⟩ := lowerExpr_total he v
  obtain ⟨a', ha'⟩ := lowerExpr_total he' v
  have hunique : Relator.BiUnique (@Eq String) :=
    ⟨fun _ _ _ h h' => h.trans h'.symm, fun _ _ _ h h' => h.symm.trans h'⟩
  have hnames : Names env (.identifiers env v) Eq v :=
    ⟨⟨hunique, fun _ => rfl, hv.heap, hv.oldHeap⟩, fun _ hx => not_reserved_of_identifier hv hx⟩
  exact ⟨a, a', ha, ha', (lowerExpr_alpha h he he').lower hnames ha ha'⟩

namespace Capture

def env : Env := { context := {} }

def view : View := { heap := .var "$Heap", oldHeap := .old "$Heap" }

/-- That every object is null. -/
def allNull (x : String) : Source.Expr :=
  .quant ⟨default, .bool⟩ .all [(x, .object)] none
    (.binary ⟨default, .bool⟩ .eq (.var ⟨default, .object⟩ x) (.null ⟨default, .object⟩)) [] .default

theorem marked : view.Marked where
  heap := rfl
  oldHeap := rfl
  names x hx := by
    obtain rfl : x = "$Heap" := by simpa [view, Expr.names] using hx
    exact fun h => (h '$' (by decide)).1 rfl

theorem allNull_wellTyped {D : Discipline} {x : String} (hx : D.binder x) (Γ : Typing) :
    WellTyped env.context D false Γ (allNull x) :=
  .quant (by simp) (by simpa using ⟨hx, trivial⟩) rfl
    (by simp [Source.Expr.typ, Source.Expr.info, Typ.sort]) nofun
    (.binary ⟨.inl rfl, rfl⟩ (.var (by simp)) (.null rfl)) nofun

theorem allNull_alphaEq (x y : String) : (allNull x).AlphaEq (allNull y) :=
  .quant rfl ⟨rfl, .singleton x y⟩ rfl nofun
    (.binary rfl (.var rfl (.inl (by simp))) (.null rfl)) rfl nofun nofun

/-- Names of one letter are none of those that lowered expressions mention. -/
theorem identifier {x : String} (hx : Naming.Plain x) (hlen : x.length = 1) :
    (Discipline.identifiers env view).binder x := by
  refine ⟨hx, fun h => ?_, ?_, nofun⟩
  · simp only [preludeConstants, List.mem_cons, List.not_mem_nil, or_false] at h
    rcases h with rfl | rfl | rfl | rfl | rfl | rfl <;> revert hlen <;> decide
  · rintro rfl
    revert hlen
    decide

end Capture

theorem lowering_alpha_allNull :
    WellTyped Capture.env.context (.identifiers Capture.env Capture.view) false (fun _ => none)
        (Capture.allNull "o") ∧
      ∃ a a', (lowerExpr Capture.view (Capture.allNull "o")).Returns Capture.env a ∧
        (lowerExpr Capture.view (Capture.allNull "p")).Returns Capture.env a' ∧ a.AlphaEq a' := by
  have ho := Capture.identifier (x := "o") (by simp [Naming.Plain]) rfl
  have hp := Capture.identifier (x := "p") (by simp [Naming.Plain]) rfl
  exact ⟨Capture.allNull_wellTyped ho _, lowering_alpha Capture.marked
    (Capture.allNull_wellTyped ho fun _ => none) (Capture.allNull_wellTyped hp _)
    (Capture.allNull_alphaEq "o" "p")⟩

/-- Below a variable `null` the null reference cannot be said: that every object is null is not
lowered like itself with another variable, although both names are plain. -/
theorem null_captured :
    (Naming.Plain "null" ∧ Naming.Plain "o") ∧
    (WellTyped Capture.env.context .free false (fun _ => none) (Capture.allNull "null") ∧
      WellTyped Capture.env.context .free false (fun _ => none) (Capture.allNull "o")) ∧
    (Capture.allNull "null").AlphaEq (Capture.allNull "o") ∧
    ∃ a a', (lowerExpr Capture.view (Capture.allNull "null")).Returns Capture.env a ∧
      (lowerExpr Capture.view (Capture.allNull "o")).Returns Capture.env a' ∧
      ¬ a.AlphaEq a' := by
  refine ⟨⟨by simp [Naming.Plain], by simp [Naming.Plain]⟩,
    ⟨Capture.allNull_wellTyped trivial _, Capture.allNull_wellTyped trivial _⟩,
    Capture.allNull_alphaEq _ _, _, _, rfl, rfl, fun h => ?_⟩
  cases h with | quant _ _ _ _ _ h =>
  cases h with | binary _ h =>
  cases h with | binary _ h =>
  cases h with | var h =>
  exact absurd h (by simp [under])

end ContractLowering
