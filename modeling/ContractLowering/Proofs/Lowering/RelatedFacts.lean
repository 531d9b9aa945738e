import ContractLowering.Proofs.Lowering.Definedness
import ContractLowering.Proofs.Lowering.Related

/-!
# Related expressions have related facts

The calls in an expression leave facts behind, each under the conditions that reach it. Where
expressions are related, so are their facts, one for one (`RelatedFacts`), if the relation keeps
trivial formulas apart from others: trivial facts are left out.
-/

namespace ContractLowering

open IL Source

/-- Trivial formulas are related to trivial ones only. -/
def KeepsTruth (R : IL.Expr → IL.Expr → Prop) : Prop := ∀ ⦃a a'⦄, R a a' → a.isTrue = a'.isTrue

/-! ## Frames -/

/-- The first frame wraps a formula as the second one wraps a formula related to it. -/
def Frame.Wraps (R R' : IL.Expr → IL.Expr → Prop) (auto : Bool) (fr fr' : Frame) : Prop :=
  ∀ ⦃a a'⦄, R' a a' → R (fr.wrap auto a) (fr'.wrap auto a')

namespace Frame

variable {env : Env} {v : View} {R R' : IL.Expr → IL.Expr → Prop} {auto : Bool} {fr fr' : Frame}

theorem Wraps.under (h : Wraps R R' auto fr fr') (hT : KeepsTruth R) {as as' : List IL.Expr}
    (has : List.Forall₂ R' as as') : List.Forall₂ R (fr.under auto as) (fr'.under auto as') := by
  unfold Frame.under
  induction has with
  | nil => exact .nil
  | @cons a a' as as' ha _ ih =>
    have ha := h ha
    have htrue := hT ha
    rw [List.map_cons, List.map_cons]
    cases hc : (fr.wrap auto a).isTrue with
    | true => rwa [List.filter_cons_of_neg (by simp [hc]), List.filter_cons_of_neg
        (by simp [← htrue, hc])]
    | false =>
      rw [List.filter_cons_of_pos (by simp [hc]), List.filter_cons_of_pos
        (by simp [← htrue, hc])]
      exact .cons ha ih

theorem wraps_guard (hR : Compatible R) {c c' : IL.Expr} (hc : R c c') :
    Wraps R R auto (.guard c) (.guard c') := fun _ _ ha => hR.imp hc ha

/-- Trivial formulas stay trivial, whatever binds names above them. -/
theorem related_of_isTrue (hR : Compatible R) (hT : KeepsTruth R') {a a' b b' : IL.Expr}
    (ha : R' a a') (h : a.isTrue = false → R b b') :
    R (if a.isTrue then a else b) (if a'.isTrue then a' else b') := by
  cases htrue : a.isTrue with
  | true =>
    have htrue' := (hT ha).symm.trans htrue
    rw [if_pos rfl, if_pos htrue', IL.Expr.isTrue_iff.1 htrue, IL.Expr.isTrue_iff.1 htrue']
    exact hR.bool true
  | false =>
    have htrue' := (hT ha).symm.trans htrue
    rw [if_neg (by simp), if_neg (by simp [htrue'])]
    exact h htrue

theorem wraps_bind (hR : Compatible R) (hT : KeepsTruth R') {us us' : List (String × IL.Expr)}
    (hbinds : BindsAlike R R' (us.map (·.1)) (us'.map (·.1)))
    (hus : List.Forall₂ (fun u u' => R u.2 u'.2) us us') :
    Wraps R R' auto (.bind us) (.bind us') := fun _ _ ha =>
  related_of_isTrue hR hT ha fun _ => hbinds.lets rfl rfl hus ha

/-- The frames of bound variables. -/
theorem wraps_ofBinders (hR : Compatible R) (hT : KeepsTruth R') {bs bs' : List Source.Binder}
    (hbs : EntersWhere env v v R R' bs bs') (hfr : (ofBinders v bs).Returns env fr)
    (hfr' : (ofBinders v bs').Returns env fr') : Wraps R R' auto fr fr' := by
  simp only [ofBinders, ExprM.returns_bind, ExprM.returns_pure] at hfr hfr'
  obtain ⟨w, hw, rfl⟩ := hfr
  obtain ⟨w', hw', rfl⟩ := hfr'
  intro a a' ha
  refine related_of_isTrue hR hT ha fun _ => ?_
  have hmatrix := hbs.congruence.imp (Enters.wheres hbs hbs.congruence.heap hw hw') ha
  refine hbs.quantify ?_ hmatrix
  rw [sortBinders_names, sortBinders_names]
  cases auto with
  | true => exact .chosen
  | false => exact .given .nil

end Frame

/-! ## Lists of facts -/

/-- Two computations give related formulas, one for one. -/
def GiveAlike (env : Env) (R : IL.Expr → IL.Expr → Prop) (x x' : ExprM (List IL.Expr)) : Prop :=
  ∀ ⦃as as'⦄, x.Returns env as → x'.Returns env as' → List.Forall₂ R as as'

/-- Only calls have facts of their own. -/
theorem collectNode_facts {v : View} {e : Source.Expr} (he : ∀ i f r es, e ≠ .call i f r es) :
    collectNode .facts v e = pure [] := by
  cases e with
  | call i f r es => exact absurd rfl (he i f r es)
  | _ => rfl

/-- The fact of a call is that it was made. -/
theorem returns_collectNode_call {env : Env} {v : View} {i : Info} {f : Path}
    {r : Option Source.Expr} {es : List Source.Expr} {as : List IL.Expr} :
    (collectNode .facts v (.call i f r es)).Returns env as ↔
      ∃ us, (lowerCallArgs v f r es).Returns env us ∧
        as = [.app (Naming.layered f .canCall) us] := by
  simp [collectNode, canCallFact?, IL.Expr.isTrue]

namespace GiveAlike

variable {env : Env} {v : View} {R : IL.Expr → IL.Expr → Prop}
  {w w' x x' y y' z z' : ExprM (List IL.Expr)}

theorem nil : GiveAlike env R (pure []) (pure []) := by
  intro as as' h h'
  rw [ExprM.returns_pure] at h h'
  subst h h'
  exact .nil

/-- The outermost operations of expressions that are no calls. -/
theorem node {e e' : Source.Expr} (he : ∀ i f r es, e ≠ .call i f r es := by simp)
    (he' : ∀ i f r es, e' ≠ .call i f r es := by simp) :
    GiveAlike env R (collectNode .facts v e) (collectNode .facts v e') := by
  rw [collectNode_facts he, collectNode_facts he']
  exact nil

theorem append (hx : GiveAlike env R x x') (hy : GiveAlike env R y y') :
    GiveAlike env R (x >>= fun a => y >>= fun b => pure (a ++ b))
      (x' >>= fun a => y' >>= fun b => pure (a ++ b)) := by
  intro as as' h h'
  simp only [ExprM.returns_bind, ExprM.returns_pure] at h h'
  obtain ⟨a, ha, b, hb, rfl⟩ := h
  obtain ⟨a', ha', b', hb', rfl⟩ := h'
  exact List.rel_append (hx ha ha') (hy hb hb')

theorem append₃ (hx : GiveAlike env R x x') (hy : GiveAlike env R y y')
    (hz : GiveAlike env R z z') :
    GiveAlike env R (x >>= fun a => y >>= fun b => z >>= fun c => pure (a ++ b ++ c))
      (x' >>= fun a => y' >>= fun b => z' >>= fun c => pure (a ++ b ++ c)) := by
  intro as as' h h'
  simp only [ExprM.returns_bind, ExprM.returns_pure] at h h'
  obtain ⟨a, ha, b, hb, c, hc, rfl⟩ := h
  obtain ⟨a', ha', b', hb', c', hc', rfl⟩ := h'
  exact List.rel_append (List.rel_append (hx ha ha') (hy hb hb')) (hz hc hc')

theorem append₄ (hw : GiveAlike env R w w') (hx : GiveAlike env R x x')
    (hy : GiveAlike env R y y') (hz : GiveAlike env R z z') :
    GiveAlike env R
      (w >>= fun a => x >>= fun b => y >>= fun c => z >>= fun d => pure (a ++ b ++ c ++ d))
      (w' >>= fun a => x' >>= fun b => y' >>= fun c => z' >>= fun d =>
        pure (a ++ b ++ c ++ d)) := by
  intro as as' h h'
  simp only [ExprM.returns_bind, ExprM.returns_pure] at h h'
  obtain ⟨a, ha, b, hb, c, hc, d, hd, rfl⟩ := h
  obtain ⟨a', ha', b', hb', c', hc', d', hd', rfl⟩ := h'
  exact List.rel_append (List.rel_append (List.rel_append (hw ha ha') (hx hb hb')) (hy hc hc'))
    (hz hd hd')

end GiveAlike

/-! ## Parts of expressions -/

/-- Two expressions are lowered to related expressions, and their calls have related facts. -/
structure RelatedFacts (env : Env) (v : View) (R : IL.Expr → IL.Expr → Prop)
    (e e' : Source.Expr) : Prop extends Related env v v R e e' where
  facts : GiveAlike env R (collect .facts v e) (collect .facts v e')

namespace RelatedFacts

section

variable {env : Env} {v : View} {R : IL.Expr → IL.Expr → Prop}

theorem related? {o o' : Option Source.Expr} (ho : Option.Rel (RelatedFacts env v R) o o') :
    Option.Rel (Related env v v R) o o' := by
  cases ho with
  | none => exact .none
  | some h => exact .some h.toRelated

theorem related_list {es es' : List Source.Expr}
    (hes : List.Forall₂ (RelatedFacts env v R) es es') :
    List.Forall₂ (Related env v v R) es es' :=
  hes.imp fun _ _ h => h.toRelated

theorem collect? {o o' : Option Source.Expr} (ho : Option.Rel (RelatedFacts env v R) o o') :
    GiveAlike env R (ContractLowering.collect? .facts v o)
      (ContractLowering.collect? .facts v o') := by
  cases ho with
  | none => exact .nil
  | some h => exact h.facts

theorem collectList {es es' : List Source.Expr}
    (hes : List.Forall₂ (RelatedFacts env v R) es es') :
    GiveAlike env R (ContractLowering.collectList .facts v es)
      (ContractLowering.collectList .facts v es') := by
  induction hes with
  | nil => exact .nil
  | cons h _ ih =>
    simp only [ContractLowering.collectList]
    exact h.facts.append ih

theorem collectEntries {kvs kvs' : List (Source.Expr × Source.Expr)}
    (hkvs : List.Forall₂ (fun p q => RelatedFacts env v R p.1 q.1 ∧ RelatedFacts env v R p.2 q.2)
      kvs kvs') :
    GiveAlike env R (ContractLowering.collectEntries .facts v kvs)
      (ContractLowering.collectEntries .facts v kvs') := by
  induction hkvs with
  | nil => exact .nil
  | cons h _ ih =>
    simp only [ContractLowering.collectEntries]
    exact h.1.facts.append₃ h.2.facts ih

theorem collectBindings {bs bs' : List (String × Source.Expr)}
    (hbs : List.Forall₂ (fun p p' => RelatedFacts env v R p.2 p'.2) bs bs') :
    GiveAlike env R (ContractLowering.collectBindings .facts v bs)
      (ContractLowering.collectBindings .facts v bs') := by
  induction hbs with
  | nil => exact .nil
  | cons h _ ih =>
    simp only [ContractLowering.collectBindings]
    exact h.facts.append ih

end

/-! ## Expressions -/

section

variable {env : Env} {v : View} {R R' : IL.Expr → IL.Expr → Prop} {i i' : Info}
  {e e' a a' b b' c c' : Source.Expr}

theorem old (ht : i'.typ = i.typ) (h : RelatedFacts env v.old R e e') :
    RelatedFacts env v R (.old i e) (.old i' e') where
  toRelated := .old ht h.toRelated
  facts := by
    simp only [collect]
    exact h.facts

/-- Expressions without calls. -/
theorem of_silent (h : Related env v v R e e') (he : collect .facts v e = pure [])
    (he' : collect .facts v e' = pure []) : RelatedFacts env v R e e' where
  toRelated := h
  facts := by
    rw [he, he']
    exact .nil

/-- Expressions with the facts of one part. -/
theorem of_one (h : Related env v v R e e') (ha : RelatedFacts env v R a a')
    (he : collect .facts v e = collect .facts v a)
    (he' : collect .facts v e' = collect .facts v a') : RelatedFacts env v R e e' where
  toRelated := h
  facts := by
    rw [he, he']
    exact ha.facts

theorem var (ht : i'.typ = i.typ) {x y : String} (h : R (.var x) (.var y)) :
    RelatedFacts env v R (.var i x) (.var i' y) :=
  of_silent (.var ht h) (by simp [collect]) (by simp [collect])

variable (hR : Congruence env v v R) (ht : i'.typ = i.typ)
include hR ht

theorem bool (b : Bool) : RelatedFacts env v R (.bool i b) (.bool i' b) :=
  of_silent (Related.bool hR ht b) (by simp [collect]) (by simp [collect])

theorem int (n : Int) : RelatedFacts env v R (.int i n) (.int i' n) :=
  of_silent (Related.int hR ht n) (by simp [collect]) (by simp [collect])

theorem null : RelatedFacts env v R (.null i) (.null i') :=
  of_silent (Related.null hR ht) (by simp [collect]) (by simp [collect])

theorem this : RelatedFacts env v R (.this i) (.this i') :=
  of_silent (Related.this hR ht) (by simp [collect]) (by simp [collect])

theorem field {f : FieldId} (h : RelatedFacts env v R e e') :
    RelatedFacts env v R (.field i e f) (.field i' e' f) :=
  of_one (Related.field hR ht h.toRelated) h (by simp [collect, collectNode_facts])
    (by simp [collect, collectNode_facts])

theorem arrayLength (h : RelatedFacts env v R e e') :
    RelatedFacts env v R (.arrayLength i e) (.arrayLength i' e') :=
  of_one (Related.arrayLength hR ht h.toRelated) h (by simp [collect, collectNode_facts])
    (by simp [collect, collectNode_facts])

theorem destruct {dt : Path} {k f : String} (h : RelatedFacts env v R e e') :
    RelatedFacts env v R (.destruct i e dt k f) (.destruct i' e' dt k f) :=
  of_one (Related.destruct hR ht h.toRelated) h (by simp [collect, collectNode_facts])
    (by simp [collect, collectNode_facts])

theorem isCtor {dt : Path} {k : String} (h : RelatedFacts env v R e e') :
    RelatedFacts env v R (.isCtor i e dt k) (.isCtor i' e' dt k) :=
  of_one (Related.isCtor hR ht h.toRelated) h (by simp [collect]) (by simp [collect])

theorem fresh (h : RelatedFacts env v R e e') : RelatedFacts env v R (.fresh i e) (.fresh i' e') :=
  of_one (Related.fresh hR ht h.toRelated) h (by simp [collect]) (by simp [collect])

theorem unary {op : UnOp} (h : RelatedFacts env v R e e') :
    RelatedFacts env v R (.unary i op e) (.unary i' op e') :=
  of_one (Related.unary hR ht h.toRelated) h (by simp [collect]) (by simp [collect])

theorem index (ha : RelatedFacts env v R a a') (hb : RelatedFacts env v R b b') :
    RelatedFacts env v R (.index i a b) (.index i' a' b') where
  toRelated := .index hR ht ha.toRelated hb.toRelated
  facts := by
    simp only [collect]
    exact ha.facts.append₃ hb.facts .node

theorem slice {lo hi lo' hi' : Option Source.Expr} (h : RelatedFacts env v R e e')
    (hlo : Option.Rel (RelatedFacts env v R) lo lo')
    (hhi : Option.Rel (RelatedFacts env v R) hi hi') :
    RelatedFacts env v R (.slice i e lo hi) (.slice i' e' lo' hi') where
  toRelated := .slice hR ht h.toRelated (related? hlo) (related? hhi)
  facts := by
    simp only [collect]
    exact h.facts.append₄ (collect? hlo) (collect? hhi) .node

theorem update (ha : RelatedFacts env v R a a') (hb : RelatedFacts env v R b b')
    (hc : RelatedFacts env v R c c') :
    RelatedFacts env v R (.update i a b c) (.update i' a' b' c') where
  toRelated := .update hR ht ha.toRelated hb.toRelated hc.toRelated
  facts := by
    simp only [collect]
    exact ha.facts.append₄ hb.facts hc.facts .node

theorem display {kind : Collection} {es es' : List Source.Expr}
    (hes : List.Forall₂ (RelatedFacts env v R) es es') :
    RelatedFacts env v R (.display i kind es) (.display i' kind es') where
  toRelated := .display hR ht (related_list hes)
  facts := by
    simp only [collect]
    exact collectList hes

theorem mapDisplay {kvs kvs' : List (Source.Expr × Source.Expr)}
    (hkvs : List.Forall₂ (fun p q => RelatedFacts env v R p.1 q.1 ∧ RelatedFacts env v R p.2 q.2)
      kvs kvs') : RelatedFacts env v R (.mapDisplay i kvs) (.mapDisplay i' kvs') where
  toRelated := .mapDisplay hR ht (hkvs.imp fun _ _ h => ⟨h.1.toRelated, h.2.toRelated⟩)
  facts := by
    simp only [collect]
    exact collectEntries hkvs

theorem ctor {dt : Path} {k : String} {es es' : List Source.Expr}
    (hes : List.Forall₂ (RelatedFacts env v R) es es') :
    RelatedFacts env v R (.ctor i dt k es) (.ctor i' dt k es') where
  toRelated := .ctor hR ht (related_list hes)
  facts := by
    simp only [collect]
    exact (collectList hes).append .node

theorem call {f : Path} {r r' : Option Source.Expr} {es es' : List Source.Expr}
    (hr : Option.Rel (RelatedFacts env v R) r r')
    (hes : List.Forall₂ (RelatedFacts env v R) es es') :
    RelatedFacts env v R (.call i f r es) (.call i' f r' es') where
  toRelated := .call hR ht (related? hr) (related_list hes)
  facts := by
    simp only [collect]
    refine (collect? hr).append₃ (collectList hes) fun as as' has has' => ?_
    rw [returns_collectNode_call] at has has'
    obtain ⟨us, hus, rfl⟩ := has
    obtain ⟨us', hus', rfl⟩ := has'
    exact .cons (hR.app (Related.lowerCallArgs hR (related? hr) (related_list hes) hus hus')) .nil

/-! ### Conditions -/

variable (hT : KeepsTruth R)
include hT

theorem binary {op : Source.BinOp} (ha : RelatedFacts env v R a a')
    (hb : RelatedFacts env v R b b') :
    RelatedFacts env v R (.binary i op a b) (.binary i' op a' b') where
  toRelated := .binary hR ht ha.toRelated hb.toRelated
  facts := by
    cases hop : guardOfFirst? op with
    | none =>
      simp only [collect, hop]
      exact ha.facts.append₃ hb.facts .node
    | some guard =>
      intro as as' has has'
      simp only [collect, hop, ExprM.returns_bind, ExprM.returns_options, ExprM.returns_pure,
        exists_eq_left] at has has'
      obtain ⟨x, hx, first, hfirst, second, hsecond, rfl⟩ := has
      obtain ⟨x', hx', first', hfirst', second', hsecond', rfl⟩ := has'
      have hguard : R (guard x) (guard x') := by
        have h := ha.lower hx hx'
        cases op <;> simp only [guardOfFirst?, Option.some.injEq, reduceCtorEq] at hop
          <;> subst hop
        · exact h
        · exact hR.neg h
        · exact h
      exact List.rel_append (ha.facts hfirst hfirst')
        ((Frame.wraps_guard hR.toCompatible hguard).under hT (hb.facts hsecond hsecond'))

omit ht in
/-- The facts of an expression and of one that is evaluated where it holds. -/
theorem guarded {auto : Bool} (ha : RelatedFacts env v R a a') (hb : RelatedFacts env v R b b')
    {x x' : IL.Expr} (hx : (lowerExpr v a).Returns env x) (hx' : (lowerExpr v a').Returns env x')
    {as as' bs bs' : List IL.Expr} (has : (collect .facts v a).Returns env as)
    (has' : (collect .facts v a').Returns env as') (hbs : (collect .facts v b).Returns env bs)
    (hbs' : (collect .facts v b').Returns env bs') :
    List.Forall₂ R (as ++ (Frame.guard x).under auto bs) (as' ++ (Frame.guard x').under auto bs') :=
  List.rel_append (ha.facts has has')
    ((Frame.wraps_guard hR.toCompatible (ha.lower hx hx')).under hT (hb.facts hbs hbs'))

theorem ite (hc : RelatedFacts env v R c c') (ha : RelatedFacts env v R a a')
    (hb : RelatedFacts env v R b b') :
    RelatedFacts env v R (.ite i c a b) (.ite i' c' a' b') where
  toRelated := .ite hR ht hc.toRelated ha.toRelated hb.toRelated
  facts := by
    intro as as' has has'
    simp only [collect, ExprM.returns_bind, ExprM.returns_options, ExprM.returns_pure,
      exists_eq_left] at has has'
    obtain ⟨x, hx, first, hfirst, thn, hthn, els, hels, rfl⟩ := has
    obtain ⟨x', hx', first', hfirst', thn', hthn', els', hels', rfl⟩ := has'
    exact List.rel_append (guarded hR hT hc ha hx hx' hfirst hfirst' hthn hthn')
      ((Frame.wraps_guard hR.toCompatible (hR.neg (hc.lower hx hx'))).under hT
        (hb.facts hels hels'))

/-! ### Binders -/

variable (hT' : KeepsTruth R')
include hT'

theorem quant {q : Source.Quantifier} {bs bs' : List Source.Binder} {r r' : Option Source.Expr}
    {ts ts' : List (List Source.Expr)} {ind ind' : Induction}
    (hbs : EntersWhere env v v R R' bs bs') (hr : Option.Rel (RelatedFacts env v R') r r')
    (h : RelatedFacts env v R' e e')
    (hts : List.Forall₂ (List.Forall₂ (Related env v v R')) ts ts') :
    RelatedFacts env v R (.quant i q bs r e ts ind) (.quant i' q bs' r' e' ts' ind') where
  toRelated := .quant ht hbs (related? hr) h.toRelated hts
  facts := by
    intro as as' has has'
    cases hr with
    | none =>
      simp only [collect, ExprM.returns_bind, ExprM.returns_options, ExprM.returns_pure,
        exists_eq_left] at has has'
      obtain ⟨inner, hinner, fr, hfr, rfl⟩ := has
      obtain ⟨inner', hinner', fr', hfr', rfl⟩ := has'
      exact (Frame.wraps_ofBinders hR.toCompatible hT' hbs hfr hfr').under hT
        (h.facts hinner hinner')
    | some hr =>
      simp only [collect, ExprM.returns_bind, ExprM.returns_options, ExprM.returns_pure,
        exists_eq_left] at has has'
      obtain ⟨first, hfirst, x, hx, rest, hrest, fr, hfr, rfl⟩ := has
      obtain ⟨first', hfirst', x', hx', rest', hrest', fr', hfr', rfl⟩ := has'
      exact (Frame.wraps_ofBinders hR.toCompatible hT' hbs hfr hfr').under hT
        (guarded hbs.congruence hT' hr h hx hx' hfirst hfirst' hrest hrest')

/-- A comprehension without a term has the facts of one that collects a variable. -/
theorem setComp {bs bs' : List Source.Binder} (hbs : EntersWhere env v v R R' bs bs')
    {t t' : Option Source.Expr} (hcollects : ∀ b b', bs = [b] → bs' = [b'] →
      collectsBinder b.1 t = collectsBinder b'.1 t')
    (h : RelatedFacts env v R' e e')
    (hterm : Option.Rel (RelatedFacts env v R') t t' ∨ t = none ∧ ∃ j x, t' = some (.var j x)) :
    RelatedFacts env v R (.setComp i bs e t) (.setComp i' bs' e' t') where
  toRelated := by
    refine .setComp hR ht hbs hcollects h.toRelated fun d hd d' hd' => ?_
    rcases hterm with hterm | ⟨rfl, -⟩
    · cases hterm with
      | none => cases hd
      | some hterm =>
        obtain rfl := Option.mem_some.1 hd
        obtain rfl := Option.mem_some.1 hd'
        exact hterm.toRelated
    · cases hd
  facts := by
    intro as as' has has'
    rcases hterm with hterm | ⟨rfl, j, x, rfl⟩
    · cases hterm with
      | none =>
        simp only [collect, ExprM.returns_bind, ExprM.returns_options, ExprM.returns_pure,
          exists_eq_left] at has has'
        obtain ⟨first, hfirst, fr, hfr, rfl⟩ := has
        obtain ⟨first', hfirst', fr', hfr', rfl⟩ := has'
        exact (Frame.wraps_ofBinders hR.toCompatible hT' hbs hfr hfr').under hT
          (h.facts hfirst hfirst')
      | some hterm =>
        simp only [collect, ExprM.returns_bind, ExprM.returns_options, ExprM.returns_pure,
          exists_eq_left] at has has'
        obtain ⟨first, hfirst, x, hx, rest, hrest, fr, hfr, rfl⟩ := has
        obtain ⟨first', hfirst', x', hx', rest', hrest', fr', hfr', rfl⟩ := has'
        exact (Frame.wraps_ofBinders hR.toCompatible hT' hbs hfr hfr').under hT
          (guarded hbs.congruence hT' h hterm hx hx' hfirst hfirst' hrest hrest')
    · simp only [collect, ExprM.returns_bind, ExprM.returns_options, ExprM.returns_pure,
        exists_eq_left] at has has'
      obtain ⟨first, hfirst, fr, hfr, rfl⟩ := has
      obtain ⟨first', hfirst', y, hy, fr', hfr', rfl⟩ := has'
      refine (Frame.wraps_ofBinders hR.toCompatible hT' hbs hfr hfr').under hT ?_
      simpa [Frame.under] using h.facts hfirst hfirst'

theorem mapComp {b b' : Source.Binder} (hbs : EntersWhere env v v R R' [b] [b'])
    (h : RelatedFacts env v R' e e') (hterm : RelatedFacts env v R' a a') :
    RelatedFacts env v R (.mapComp i b e a) (.mapComp i' b' e' a') where
  toRelated := .mapComp hR ht hbs h.toRelated hterm.toRelated
  facts := by
    intro as as' has has'
    simp only [collect, ExprM.returns_bind, ExprM.returns_options, ExprM.returns_pure,
      exists_eq_left] at has has'
    obtain ⟨first, hfirst, x, hx, rest, hrest, fr, hfr, rfl⟩ := has
    obtain ⟨first', hfirst', x', hx', rest', hrest', fr', hfr', rfl⟩ := has'
    exact (Frame.wraps_ofBinders hR.toCompatible hT' hbs hfr hfr').under hT
      (guarded hbs.congruence hT' h hterm hx hx' hfirst hfirst' hrest hrest')

theorem letIn {bs bs' : List (String × Source.Expr)}
    (hbinds : BindsAlike R R' (bs.map (·.1)) (bs'.map (·.1)))
    (hbs : List.Forall₂ (fun p p' => RelatedFacts env v R p.2 p'.2) bs bs')
    (h : RelatedFacts env v R' e e') : RelatedFacts env v R (.letIn i bs e) (.letIn i' bs' e') where
  toRelated := .letIn ht hbinds (hbs.imp fun _ _ h => h.toRelated) h.toRelated
  facts := by
    intro as as' has has'
    simp only [collect, ExprM.returns_bind, ExprM.returns_options, ExprM.returns_pure,
      exists_eq_left] at has has'
    obtain ⟨first, hfirst, us, hus, rest, hrest, rfl⟩ := has
    obtain ⟨first', hfirst', us', hus', rest', hrest', rfl⟩ := has'
    obtain ⟨hnames, hnames', hvalues⟩ :=
      Related.lowerBindings (hbs.imp fun _ _ h => h.toRelated) hus hus'
    rw [← hnames, ← hnames'] at hbinds
    exact List.rel_append (collectBindings hbs hfirst hfirst')
      ((Frame.wraps_bind hR.toCompatible hT' hbinds hvalues).under hT (h.facts hrest hrest'))

end

/-! ### Match cases -/

/-- Two match cases with one constructor, whose bodies have related facts below its variables. -/
structure Arm (env : Env) (v : View) (R : IL.Expr → IL.Expr → Prop) (d : Datatype)
    (p q : Pattern × Source.Expr) : Prop where
  ctor : q.1.ctor = p.1.ctor
  fits : ∀ {k}, d.ctor p.1.ctor = .ok k → p.1.binders.length ≤ k.fields.length
  body : ∃ R', Enters env v v R R' p.1.binders q.1.binders ∧ KeepsTruth R' ∧
    RelatedFacts env v R' p.2 q.2

section

variable {env : Env} {v : View} {R : IL.Expr → IL.Expr → Prop} {d : Datatype}

theorem Arm.related {p q : Pattern × Source.Expr} (h : Arm env v R d p q) :
    RelatedArm env v v R d p q where
  ctor := h.ctor
  fits := h.fits
  body := h.body.imp fun _ h => ⟨h.1, h.2.2.toRelated⟩

/-- The cases of a constructor. -/
theorem find_arms {arms arms' : List (Pattern × Source.Expr)}
    (harms : List.Forall₂ (Arm env v R d) arms arms') (k : String) :
    Option.Rel (Arm env v R d) (arms.find? (·.1.ctor == k)) (arms'.find? (·.1.ctor == k)) := by
  induction harms with
  | nil => exact .none
  | @cons p q arms arms' h _ ih =>
    rw [List.find?_cons, List.find?_cons, h.ctor]
    cases p.1.ctor == k with
    | true => exact .some h
    | false => exact ih

variable (hR : Congruence env v v R) (hT : KeepsTruth R)
include hR hT

/-- The facts of the case of a constructor. -/
theorem armCollects {dt : Path} {a a' : IL.Expr} {span span' : Span} {k : String}
    {o o' : Option (Pattern × Source.Expr)} (ho : Option.Rel (Arm env v R d) o o') (ha : R a a')
    {as as' : List IL.Expr} (has : ArmCollects env v d dt a span k o .facts as)
    (has' : ArmCollects env v d dt a' span' k o' .facts as') : List.Forall₂ R as as' := by
  cases ho with
  | none =>
    subst has has'
    exact .nil
  | some h =>
    obtain ⟨us, hus, bs, hbs, rfl⟩ := has
    obtain ⟨us', hus', bs', hbs', rfl⟩ := has'
    obtain ⟨R', hinner, hT', hbody⟩ := h.body
    obtain ⟨hnames, hnames', hvalues⟩ :=
      hR.toCompatible.caseBindings h.ctor hinner.types h.fits ha hus hus'
    have hbinds := hinner.binds
    rw [← hnames, ← hnames'] at hbinds
    exact (Frame.wraps_bind hR.toCompatible hT' hbinds hvalues).under hT (hbody.facts hbs hbs')

theorem cases {i i' : Info} (ht : i'.typ = i.typ) {e e' : Source.Expr}
    {arms arms' : List (Pattern × Source.Expr)} (h : RelatedFacts env v R e e')
    (harms : ∀ {dt args d}, e.typ = .datatype dt args → env.context.datatype dt = .ok d →
      List.Forall₂ (Arm env v R d) arms arms') :
    RelatedFacts env v R (.cases i e arms) (.cases i' e' arms') where
  toRelated := .cases hR ht h.toRelated fun hdt hd => (harms hdt hd).imp fun _ _ => Arm.related
  facts := by
    intro as as' has has'
    obtain ⟨dt, hdt, x, hx, d, hd, first, hfirst, _, ⟨cs, hcs, rfl⟩, rfl⟩ :=
      returns_collect_cases.1 has
    obtain ⟨dt', hdt', x', hx', d', hd', first', hfirst', _, ⟨cs', hcs', rfl⟩, rfl⟩ :=
      returns_collect_cases.1 has'
    rw [h.typ] at hdt'
    obtain rfl := hdt.unique hdt'
    obtain rfl : d = d' := Except.ok.inj (hd.symm.trans hd')
    obtain ⟨args, hvalue⟩ := returns_matchedDatatype.1 hdt
    have hx := h.lower hx hx'
    refine List.rel_append (h.facts hfirst hfirst') ?_
    have harms := harms hvalue hd
    clear hd hd' has has'
    generalize d.ctors = ks at hcs hcs'
    induction hcs generalizing cs' with
    | nil =>
      cases hcs'
      exact .nil
    | cons hc _ ih =>
      obtain _ | ⟨hc', hcs'⟩ := hcs'
      obtain ⟨bs, hbs, rfl⟩ := hc
      obtain ⟨bs', hbs', rfl⟩ := hc'
      rw [List.flatten_cons, List.flatten_cons]
      refine List.rel_append ?_ (ih _ hcs')
      exact (Frame.wraps_guard hR.toCompatible (hR.app₁ hx)).under hT
        (armCollects hR hT (find_arms harms _) hx hbs hbs')

end

end RelatedFacts

end ContractLowering
