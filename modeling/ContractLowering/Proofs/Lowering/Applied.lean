import ContractLowering.Proofs.IL.Heads
import ContractLowering.Proofs.Lowering.ExprReturns
import ContractLowering.Proofs.Lowering.Stable
import ContractLowering.Proofs.Lowering.TriggerCover
import ContractLowering.Proofs.Lowering.Vocabulary
import ContractLowering.Proofs.Source.Recursor
import ContractLowering.Proofs.Standard.Model

/-!
# What lowered expressions apply

Lowered code applies functions of the prelude, of datatypes and of fields, and layers of functions
of the source: for every call the layer that `Env.callLayer` gives, and `canCall` in the facts that
calls leave behind. A property that these have is one of all that an expression applies
(`lowerExpr_applies`), and so are its facts (`canCall_applies`): the layer depends on the callee, the
member and the mode, and a view keeps its mode in the old state.
-/

namespace ContractLowering

open IL Source

/-! ## Results in one environment -/

namespace ExprM

variable {α β : Type} {env : Env} {P : α → Prop} {Q : β → Prop}

/-- What a computation returns in an environment has a property. -/
def Always (x : ExprM α) (env : Env) (P : α → Prop) : Prop := ∀ a, x.Returns env a → P a

namespace Always

theorem pure {a : α} (h : P a) : (Pure.pure a : ExprM α).Always env P := by
  intro b hb
  rwa [returns_pure.1 hb]

theorem broken (b : Broken) : (ExprM.broken b : ExprM α).Always env P :=
  fun _ h => absurd h returns_broken

theorem bind {x : ExprM α} {f : α → ExprM β} (hx : x.Always env P)
    (hf : ∀ a, P a → (f a).Always env Q) : (x >>= f).Always env Q := by
  intro b hb
  obtain ⟨a, ha, hb⟩ := returns_bind.1 hb
  exact hf a (hx a ha) b hb

/-- What is looked up first is known to have been found. -/
theorem after {x : ExprM α} {f : α → ExprM β}
    (hf : ∀ a, x.Returns env a → (f a).Always env Q) : (x >>= f).Always env Q := by
  intro b hb
  obtain ⟨a, ha, hb⟩ := returns_bind.1 hb
  exact hf a ha b hb

theorem given {a : α} {f : α → ExprM β} (hf : (f a).Always env Q) :
    (Pure.pure a >>= f).Always env Q := by
  rwa [pure_bind]

theorem mapM {f : α → ExprM β} {l : List α} (hf : ∀ a ∈ l, (f a).Always env Q) :
    (l.mapM f).Always env fun bs => ∀ b ∈ bs, Q b := by
  intro bs hbs
  induction returns_mapM.1 hbs with
  | nil => exact List.forall_mem_nil _
  | cons hb _ ih =>
    obtain ⟨ha, hl⟩ := List.forall_mem_cons.1 hf
    exact List.forall_mem_cons.2 ⟨ha _ hb, ih hl (returns_mapM.2 ‹_›)⟩

end Always

end ExprM

/-! ## What may be applied -/

/-- Functions of the target that are no layers of functions of the source: those of the prelude,
constructors with their tests and destructors, and fields. -/
inductive Foreign (env : Env) : String → Prop
  | op (o : Standard.Op) : Foreign env o.name
  | ctor {dt : Path} {d : Datatype} {c : String} {k : Ctor}
    (hd : env.context.datatype dt = .ok d) (hk : d.ctor c = .ok k) : Foreign env (Naming.ctor dt c)
  | isCtor (dt : Path) (c : String) : Foreign env (Naming.isCtor dt c)
  | destructor {dt : Path} {d : Datatype} {c : String} {k : Ctor} {b : Source.Binder}
    (hd : env.context.datatype dt = .ok d) (hk : d.ctor c = .ok k) (hb : b ∈ k.fields) :
    Foreign env (Naming.destructor dt c b.1)
  | field {f : Field} (hf : env.context.field f.id = .ok f) : Foreign env (env.handle f).name

/-- The layer that a call of a function refers to, in code of a mode. -/
def Env.callLayer (env : Env) (mode : LayerMode) (g : Path) : Layer :=
  if env.context.calls.isRecursive g then
    match mode with
    | .limited => .limited
    | .unrolled => .normal
    | .default =>
      if env.member.any (env.context.calls.inSameComponent · g) then .limited else .normal
  else .normal

theorem returns_callLayer {env : Env} {v : View} {g : Path} {l : Layer} :
    (callLayer v g).Returns env l ↔ l = env.callLayer v.layer g := by
  cases hrecursive : env.context.calls.isRecursive g with
  | false => simp [ContractLowering.callLayer, Env.callLayer, hrecursive]
  | true =>
    cases hmember : env.member <;> cases hlayer : v.layer <;>
      simp [ContractLowering.callLayer, Env.callLayer, hrecursive, hmember, hlayer]

/-- A property of the functions that are no layers, and of the layers that code in a view refers
to. -/
structure Admits (P : String → Prop) (env : Env) (v : View) : Prop where
  foreign : ∀ {h}, Foreign env h → P h
  canCall : ∀ {g G}, env.context.function g = .ok G → P (Naming.layered g .canCall)
  call : ∀ {g G}, env.context.function g = .ok G →
    P (Naming.layered g (env.callLayer v.layer g))
  heap : v.heap.AppliesOnly P
  oldHeap : v.oldHeap.AppliesOnly P

theorem Admits.old {P : String → Prop} {env : Env} {v : View} (h : Admits P env v) :
    Admits P env v.old :=
  { h with heap := h.oldHeap }

section

variable {P : String → Prop} {env : Env} {v : View} {a b c h m o s : IL.Expr}
  {as es : List IL.Expr} {t : Typ}

open IL.Expr (AppliesOnly)
open IL.Expr.AppliesOnly (conj conj₂ conj₃ disj disj₂ imp)

theorem Triggers.Exposed.appliesOnly (h : Triggers.Exposed a b) (hb : b.AppliesOnly P) :
    a.AppliesOnly P := by
  induction h with
  | here => exact hb
  | arg ha _ ih => exact ih ((Expr.appliesOnly_app.1 hb).2 _ ha)
  | lambda _ ih => exact ih (List.forall_mem_append.1 hb).1
  | lambdaArg ha _ ih => exact ih (Expr.appliesOnly_headsList.1 (List.forall_mem_append.1 hb).2 _ ha)
  | not _ ih => exact ih hb
  | left _ ih => exact ih (Expr.appliesOnly_binary.1 hb).1
  | right _ ih => exact ih (Expr.appliesOnly_binary.1 hb).2
  | operand ha _ ih => exact ih (Expr.appliesOnly_multi.1 hb _ ha)
  | guard _ ih => exact ih (Expr.appliesOnly_ite.1 hb).1
  | thenArm _ ih => exact ih (Expr.appliesOnly_ite.1 hb).2.1
  | elseArm _ ih => exact ih (Expr.appliesOnly_ite.1 hb).2.2

/-- Chosen triggers are parts of what they are chosen for. -/
theorem Triggers.select_applies {bound : List String} (ha : a.AppliesOnly P) :
    Trigger.ApplyOnly P (Triggers.select bound a) := fun _ ht _ he =>
  (Triggers.candidate_of_mem_select ht he).exposed.appliesOnly ha

/-! ## Operations -/

section

variable (hP : ∀ {h}, Foreign env h → P h)
include hP

theorem op_applies (op : Standard.Op) (h : ∀ a ∈ as, a.AppliesOnly P) :
    (IL.Expr.app op.name as).AppliesOnly P :=
  Expr.appliesOnly_app.2 ⟨hP (.op op), h⟩

theorem op₁_applies (op : Standard.Op) (ha : a.AppliesOnly P) :
    (IL.Expr.app op.name [a]).AppliesOnly P :=
  op_applies hP op (List.forall_mem_singleton.2 ha)

theorem op₂_applies (op : Standard.Op) (ha : a.AppliesOnly P) (hb : b.AppliesOnly P) :
    (IL.Expr.app op.name [a, b]).AppliesOnly P :=
  op_applies hP op (List.forall_mem_cons.2 ⟨ha, List.forall_mem_singleton.2 hb⟩)

theorem op₃_applies (op : Standard.Op) (ha : a.AppliesOnly P) (hb : b.AppliesOnly P)
    (hc : c.AppliesOnly P) : (IL.Expr.app op.name [a, b, c]).AppliesOnly P :=
  op_applies hP op
    (List.forall_mem_cons.2 ⟨ha, List.forall_mem_cons.2 ⟨hb, List.forall_mem_singleton.2 hc⟩⟩)

theorem Boxing.box_applies (t : Typ) (ha : a.AppliesOnly P) : (box t a).AppliesOnly P := by
  unfold box
  split
  · exact ha
  · split
    · rename_i happlied
      split
      · rw [eq_of_unboxed happlied] at ha
        exact (Expr.appliesOnly_app.1 ha).2 _ (List.mem_singleton_self _)
      · exact op₁_applies hP (.box _) ha
    · exact ha
    · exact op₁_applies hP (.box _) ha

theorem Boxing.unbox_applies (t : Typ) (ha : a.AppliesOnly P) : (unbox t a).AppliesOnly P := by
  unfold unbox
  split
  · exact ha
  · split
    · rename_i happlied
      split
      · rw [eq_of_boxed happlied] at ha
        exact (Expr.appliesOnly_app.1 ha).2 _ (List.mem_singleton_self _)
      · exact op₁_applies hP (.unbox _) ha
    · exact ha
    · exact op₁_applies hP (.unbox _) ha

theorem Boxing.convert_applies (source target : Typ) (ha : a.AppliesOnly P) :
    (convert source target a).AppliesOnly P := by
  unfold convert unboxTo boxTo
  split <;> split
  · exact unbox_applies hP _ (box_applies hP _ ha)
  · exact unbox_applies hP _ ha
  · exact box_applies hP _ ha
  · exact ha

theorem Heap.isAlloc_applies (hh : h.AppliesOnly P) (ho : o.AppliesOnly P) :
    (Heap.isAlloc h o).AppliesOnly P :=
  op₁_applies hP (.unbox .bool) (op₃_applies hP .read hh ho (Expr.appliesOnly_var _))

theorem Heap.dtypeIs_applies (p : Path) (ho : o.AppliesOnly P) :
    (Heap.dtypeIs o p).Always env (AppliesOnly P) := by
  intro e he
  rw [Heap.returns_dtypeIs.1 he]
  exact Expr.appliesOnly_eq.2 ⟨op₁_applies hP .dtype ho, Expr.appliesOnly_var _⟩

theorem Heap.nonNullAlloc_applies (hh : h.AppliesOnly P) (ho : o.AppliesOnly P) :
    (Heap.nonNullAlloc h o).AppliesOnly P :=
  conj₂ (Expr.appliesOnly_ne.2 ⟨ho, Expr.appliesOnly_var _⟩) (Heap.isAlloc_applies hP hh ho)

theorem Heap.isFresh_applies (hh : h.AppliesOnly P) (ho : o.AppliesOnly P) :
    (Heap.isFresh h o).AppliesOnly P :=
  conj₂ (Expr.appliesOnly_ne.2 ⟨ho, Expr.appliesOnly_var _⟩)
    (Expr.appliesOnly_neg.2 (Heap.isAlloc_applies hP hh ho))

theorem Heap.receiverWhere_applies (p : Path) (ho : o.AppliesOnly P) (hh : h.AppliesOnly P) :
    (Heap.receiverWhere p o h).Always env (AppliesOnly P) :=
  (Heap.dtypeIs_applies hP p ho).bind fun _ htyped =>
    .pure (conj₂ (Heap.nonNullAlloc_applies hP hh ho) htyped)

theorem Heap.readField_applies {f : Field} (hf : env.context.field f.id = .ok f)
    (hh : h.AppliesOnly P) (ho : o.AppliesOnly P) :
    (Heap.readField h o (env.handle f)).AppliesOnly P := by
  unfold Heap.readField
  split
  · exact Boxing.unbox_applies hP _ (op₃_applies hP .read hh ho (Expr.appliesOnly_var _))
  · exact Expr.appliesOnly_app.2 ⟨hP (.field hf), List.forall_mem_singleton.2 ho⟩

/-! ## Where clauses -/

namespace WhereClause

omit hP in
theorem orNull_applies (ha : a.AppliesOnly P) (hb : b.AppliesOnly P) :
    (orNull a b).AppliesOnly P :=
  disj₂ (Expr.appliesOnly_eq.2 ⟨ha, Expr.appliesOnly_var _⟩) hb

omit hP in
theorem pairwiseExclusive_applies (h : ∀ e ∈ es, e.AppliesOnly P) :
    ∀ e ∈ pairwiseExclusive es, e.AppliesOnly P := by
  induction es with
  | nil => exact List.forall_mem_nil _
  | cons e es ih =>
    obtain ⟨he, hes⟩ := List.forall_mem_cons.1 h
    refine List.forall_mem_append.2 ⟨List.forall_mem_map.2 fun u hu => ?_, ih hes⟩
    exact Expr.appliesOnly_neg.2 (conj₂ he (hes u hu))

omit hP in
theorem both_applies {x y : Option IL.Expr} (hx : ∀ e ∈ x, e.AppliesOnly P)
    (hy : ∀ e ∈ y, e.AppliesOnly P) : ∀ e ∈ both x y, e.AppliesOnly P := by
  have hparts : ∀ e ∈ x.toList ++ y.toList, e.AppliesOnly P :=
    List.forall_mem_append.2 ⟨fun e he => hx e (by simpa using he), fun e he => hy e (by simpa using he)⟩
  intro e he
  cases x <;> cases y <;> simp only [both, Option.mem_def, Option.some.injEq, reduceCtorEq] at he <;>
    exact he ▸ conj hparts

theorem ofDatatype_applies (extended : Bool) (p : Path) (ha : a.AppliesOnly P)
    (hh : h.AppliesOnly P) : (ofDatatype extended p a h).Always env (AppliesOnly P) := by
  refine .after fun d _ => .pure (conj ?_)
  have htests : ∀ e ∈ d.ctors.map fun k => IL.Expr.app (Naming.isCtor p k.name) [a],
      e.AppliesOnly P :=
    List.forall_mem_map.2 fun k _ =>
      Expr.appliesOnly_app.2 ⟨hP (.isCtor p k.name), List.forall_mem_singleton.2 ha⟩
  refine List.forall_mem_append.2 ⟨List.forall_mem_cons.2 ⟨op₂_applies hP .isAllocDt ha hh,
    List.forall_mem_singleton.2 (disj htests)⟩, ?_⟩
  split
  · exact pairwiseExclusive_applies htests
  · exact List.forall_mem_nil _

omit hP in
/-- A fact about elements that a term picks out, which is also the trigger. -/
theorem element_applies {bs : List IL.Binder} (hm : m.AppliesOnly P) (ha : a.AppliesOnly P)
    (hb : b.AppliesOnly P) : (IL.Expr.all bs [[m]] (.imp a b)).AppliesOnly P :=
  .all (.single hm) (imp ha hb)

omit hP in
theorem some_applies (ha : a.AppliesOnly P) : ∀ e ∈ some a, e.AppliesOnly P :=
  fun _ he => Option.mem_some.1 he ▸ ha

theorem clause_applies (extended : Bool) (hh : h.AppliesOnly P) (depth : Nat) (t : Typ)
    (ha : a.AppliesOnly P) :
    (clause extended h depth t a).Always env fun o => ∀ e ∈ o, e.AppliesOnly P := by
  have hbox (depth : Nat) : (IL.Expr.var (boxVar depth)).AppliesOnly P := Expr.appliesOnly_var _
  have hindex (depth : Nat) : (IL.Expr.var (indexVar depth)).AppliesOnly P := Expr.appliesOnly_var _
  fun_induction clause extended h depth t a with
  | case1 | case2 | case3 => exact .pure nofun
  | case4 => exact .pure (some_applies (Expr.appliesOnly_le.2 ⟨Expr.appliesOnly_nat 0, ha⟩))
  | case5 | case6 =>
    exact (Heap.dtypeIs_applies hP _ ha).bind fun _ htyped =>
      .pure (some_applies (orNull_applies ha (conj₂ (Heap.isAlloc_applies hP hh ha) htyped)))
  | case7 => exact .pure (some_applies (orNull_applies ha (Heap.isAlloc_applies hP hh ha)))
  | case8 => exact (ofDatatype_applies hP extended _ ha hh).bind fun _ hd => .pure (some_applies hd)
  | case9 depth elem a x ih =>
    have hmem : (Prelude.setMem a (.var x)).AppliesOnly P := op₂_applies hP .setMem ha (hbox depth)
    refine (ih (Boxing.unbox_applies hP _ (hbox depth))).bind fun inner hinner =>
      .pure (both_applies ?_ ?_)
    · split
      · exact some_applies (op₁_applies hP .isGoodSet ha)
      · exact nofun
    · exact Option.forall_mem_map.2 fun w hw => element_applies hmem hmem (hinner w hw)
  | case10 depth elem a x ih =>
    have hmem : (Prelude.multiplicity a (.var x)).AppliesOnly P :=
      op₂_applies hP .multiplicity ha (hbox depth)
    refine (ih (Boxing.unbox_applies hP _ (hbox depth))).bind fun inner hinner =>
      .pure (both_applies ?_ ?_)
    · split
      · exact some_applies (op₁_applies hP .isGoodMultiset ha)
      · exact nofun
    · exact Option.forall_mem_map.2 fun w hw => element_applies hmem
        (Expr.appliesOnly_lt.2 ⟨Expr.appliesOnly_nat 0, hmem⟩) (hinner w hw)
  | case11 depth elem a i _ ih =>
    have hat : (Prelude.seqIndex a (.var i)).AppliesOnly P :=
      op₂_applies hP .seqIndex ha (hindex depth)
    have hrange := conj₂ (Expr.appliesOnly_le.2 ⟨Expr.appliesOnly_nat 0, hindex depth⟩)
      (Expr.appliesOnly_lt.2 ⟨hindex depth, op₁_applies hP .seqLength ha⟩)
    exact (ih (Boxing.unbox_applies hP _ hat)).bind fun inner hinner =>
      .pure (Option.forall_mem_map.2 fun w hw => element_applies hat hrange (hinner w hw))
  | case12 depth key value a x ihk ihv =>
    have hmem : (Prelude.setMem (Prelude.mapDomain a) (.var x)).AppliesOnly P :=
      op₂_applies hP .setMem (op₁_applies hP .mapDomain ha) (hbox depth)
    have hmapped := Boxing.unbox_applies hP value (op₂_applies hP .mapElements ha (hbox depth))
    exact (ihk (Boxing.unbox_applies hP _ (hbox depth))).bind fun _ hk =>
      (ihv hmapped).bind fun _ hv => .pure (Option.forall_mem_map.2 fun w hw =>
        element_applies hmem hmem (both_applies hk hv w hw))

end WhereClause

theorem whereClause_applies (t : Typ) (ha : a.AppliesOnly P) (hh : h.AppliesOnly P) :
    (whereClause t a h).Always env fun o => ∀ e ∈ o, e.AppliesOnly P :=
  WhereClause.clause_applies hP false hh 0 t ha

theorem whereClauses_applies (bs : List Source.Binder) (hh : h.AppliesOnly P) :
    (whereClauses h bs).Always env fun es => ∀ e ∈ es, e.AppliesOnly P := by
  refine (ExprM.Always.mapM fun b _ =>
    whereClause_applies hP b.2 (Expr.appliesOnly_var b.1) hh).bind fun os hos => .pure ?_
  intro e he
  obtain ⟨o, ho, he⟩ := List.mem_filterMap.1 he
  exact hos o ho e he

theorem bindersWhere_applies (bs : List Source.Binder) (hh : h.AppliesOnly P) :
    (bindersWhere h bs).Always env (AppliesOnly P) :=
  (whereClauses_applies hP bs hh).bind fun _ hes => .pure (conj hes)

/-! ## Operators -/

theorem typedEq_applies (t : Typ) (ha : a.AppliesOnly P) (hb : b.AppliesOnly P) :
    (typedEq t a b).AppliesOnly P := by
  cases t with
  | set => exact op₂_applies hP .setEqual ha hb
  | multiset => exact op₂_applies hP .multisetEqual ha hb
  | seq => exact op₂_applies hP .seqEqual ha hb
  | map => exact op₂_applies hP .mapEqual ha hb
  | _ => exact Expr.appliesOnly_eq.2 ⟨ha, hb⟩

theorem lowerMem_applies (t : Typ) (ha : a.AppliesOnly P) (hb : b.AppliesOnly P) :
    (lowerMem t a b).Always env (AppliesOnly P) := by
  cases t with
  | set => exact .pure (op₂_applies hP .setMem ha hb)
  | multiset =>
    exact .pure (Expr.appliesOnly_lt.2
      ⟨Expr.appliesOnly_nat 0, op₂_applies hP .multiplicity ha hb⟩)
  | seq => exact .pure (op₂_applies hP .seqContains ha hb)
  | map => exact .pure (op₂_applies hP .setMem (op₁_applies hP .mapDomain ha) hb)
  | _ => exact .broken _

theorem collectionBelow_applies (proper : Bool) (t : Typ) (ha : a.AppliesOnly P)
    (hb : b.AppliesOnly P) : (collectionBelow proper t a b).Always env (AppliesOnly P) := by
  cases t with
  | set =>
    refine .pure ?_
    split
    · exact conj₂ (op₂_applies hP .setSubset ha hb)
        (Expr.appliesOnly_neg.2 (op₂_applies hP .setEqual ha hb))
    · exact op₂_applies hP .setSubset ha hb
  | multiset =>
    refine .pure ?_
    split
    · exact conj₂ (op₂_applies hP .multisetSubset ha hb)
        (Expr.appliesOnly_neg.2 (op₂_applies hP .multisetEqual ha hb))
    · exact op₂_applies hP .multisetSubset ha hb
  | seq =>
    have hla := op₁_applies hP .seqLength ha
    have hlb := op₁_applies hP .seqLength hb
    refine .pure (conj₂ ?_ (op₃_applies hP .seqSameUntil ha hb hla))
    split
    · exact Expr.appliesOnly_lt.2 ⟨hla, hlb⟩
    · exact Expr.appliesOnly_le.2 ⟨hla, hlb⟩
  | _ => exact .broken _

theorem lowerCompare_applies (op : IL.BinOp) (proper swapped : Bool) (t : Typ)
    (ha : a.AppliesOnly P) (hb : b.AppliesOnly P) :
    (lowerCompare op proper swapped t a b).Always env (AppliesOnly P) := by
  unfold lowerCompare
  split
  · split
    · exact collectionBelow_applies hP proper t hb ha
    · exact collectionBelow_applies hP proper t ha hb
  · exact .pure (Expr.appliesOnly_binary.2 ⟨ha, hb⟩)

theorem lowerArith_applies (op : MultiOp) (t : Typ) (ha : a.AppliesOnly P)
    (hb : b.AppliesOnly P) : (lowerArith op t a b).Always env (AppliesOnly P) := by
  have happly (o : Standard.Op) := op₂_applies hP o ha hb
  cases t with
  | set =>
    cases op with
    | add => exact .pure (happly .setUnion)
    | sub => exact .pure (happly .setDifference)
    | _ => exact .pure (happly .setIntersection)
  | multiset =>
    cases op with
    | add => exact .pure (happly .multisetUnion)
    | sub => exact .pure (happly .multisetDifference)
    | _ => exact .pure (happly .multisetIntersection)
  | seq =>
    cases op with
    | add => exact .pure (happly .seqAppend)
    | _ => exact .broken _
  | _ =>
    exact .pure (Expr.appliesOnly_multi.2
      (List.forall_mem_cons.2 ⟨ha, List.forall_mem_singleton.2 hb⟩))

theorem lowerBinary_applies (op : Source.BinOp) (t₁ t₂ : Typ) (ha : a.AppliesOnly P)
    (hb : b.AppliesOnly P) : (lowerBinary op t₁ t₂ a b).Always env (AppliesOnly P) := by
  have heq := typedEq_applies hP t₁ ha (Boxing.convert_applies hP t₂ t₁ hb)
  have hmem := lowerMem_applies hP t₂ hb (Boxing.box_applies hP t₁ ha)
  cases op with
  | and => exact .pure (conj₂ ha hb)
  | or => exact .pure (disj₂ ha hb)
  | implies => exact .pure (imp ha hb)
  | iff | div | mod => exact .pure (Expr.appliesOnly_binary.2 ⟨ha, hb⟩)
  | eq => exact .pure heq
  | ne => exact .pure (Expr.appliesOnly_neg.2 heq)
  | lt | le | gt | ge => exact lowerCompare_applies hP _ _ _ t₁ ha hb
  | add | sub | mul => exact lowerArith_applies hP _ t₁ ha hb
  | mem => exact hmem
  | notMem => exact hmem.bind fun _ hm => .pure (Expr.appliesOnly_neg.2 hm)
  | disjoint =>
    cases t₁ with
    | multiset => exact .pure (op₂_applies hP .multisetDisjoint ha hb)
    | _ => exact .pure (op₂_applies hP .setDisjoint ha hb)

theorem lowerIndex_applies (coll idx result : Typ) (hh : v.heap.AppliesOnly P)
    (ha : a.AppliesOnly P) (hb : b.AppliesOnly P) :
    (lowerIndex v coll idx result a b).Always env (AppliesOnly P) := by
  cases coll with
  | seq =>
    exact .pure (Boxing.convert_applies hP _ _ (Boxing.unbox_applies hP _
      (op₂_applies hP .seqIndex ha hb)))
  | array =>
    exact .pure (Boxing.convert_applies hP _ _ (Boxing.unbox_applies hP _
      (op₃_applies hP .read hh ha (op₁_applies hP .indexField hb))))
  | map key =>
    exact .pure (Boxing.convert_applies hP _ _ (Boxing.unbox_applies hP _
      (op₂_applies hP .mapElements ha
        (Boxing.box_applies hP key (Boxing.convert_applies hP idx key hb)))))
  | multiset elem =>
    exact .pure (op₂_applies hP .multiplicity ha (Boxing.box_applies hP elem hb))
  | _ => exact .broken _

theorem lowerUpdate_applies (coll value : Typ) (ha : a.AppliesOnly P) (hb : b.AppliesOnly P)
    (hc : c.AppliesOnly P) : (lowerUpdate coll value a b c).Always env (AppliesOnly P) := by
  cases coll with
  | seq elem =>
    exact .pure (op₃_applies hP .seqUpdate ha hb
      (Boxing.box_applies hP elem (Boxing.convert_applies hP value elem hc)))
  | map key mapped =>
    exact .pure (op₃_applies hP .mapBuild ha (Boxing.box_applies hP key hb)
      (Boxing.box_applies hP mapped (Boxing.convert_applies hP value mapped hc)))
  | _ => exact .broken _

theorem lowerCard_applies (t : Typ) (ha : a.AppliesOnly P) :
    (lowerCard t).Always env fun size => (size a).AppliesOnly P := by
  cases t with
  | set => exact .pure (op₁_applies hP .setCard ha)
  | multiset => exact .pure (op₁_applies hP .multisetCard ha)
  | seq => exact .pure (op₁_applies hP .seqLength ha)
  | map => exact .pure (op₁_applies hP .mapCard ha)
  | _ => exact .broken _

theorem seqSlice_applies {lo hi : Option IL.Expr} (hs : s.AppliesOnly P)
    (hlo : ∀ e ∈ lo, e.AppliesOnly P) (hhi : ∀ e ∈ hi, e.AppliesOnly P) :
    (seqSlice s lo hi).AppliesOnly P := by
  cases lo with
  | none =>
    cases hi with
    | none => exact hs
    | some hi => exact op₂_applies hP .seqTake hs (hhi hi rfl)
  | some lo =>
    have hdrop := op₂_applies hP .seqDrop hs (hlo lo rfl)
    cases hi with
    | none => exact hdrop
    | some hi =>
      exact op₂_applies hP .seqTake hdrop (Expr.appliesOnly_sub.2 ⟨hhi hi rfl, hlo lo rfl⟩)

theorem lowerFresh_applies (t : Typ) (hold : v.oldHeap.AppliesOnly P) (ha : a.AppliesOnly P) :
    (lowerFresh v t a).AppliesOnly P := by
  have hb : (IL.Expr.var Naming.boxVar).AppliesOnly P := Expr.appliesOnly_var _
  have ho : (Boxing.unboxRef (.var Naming.boxVar)).AppliesOnly P :=
    op₁_applies hP (.unbox .ref) hb
  have elements {m : IL.Expr} (hm : m.AppliesOnly P) :
      (IL.Expr.all [(Naming.boxVar, Prelude.boxSort)] [[m]]
        (.imp (.conj [m, .ne (Boxing.unboxRef (.var Naming.boxVar)) Prelude.null])
          (Heap.isFresh v.oldHeap (Boxing.unboxRef (.var Naming.boxVar))))).AppliesOnly P :=
    WhereClause.element_applies hm
      (conj₂ hm (Expr.appliesOnly_ne.2 ⟨ho, Expr.appliesOnly_var _⟩))
      (Heap.isFresh_applies hP hold ho)
  cases t with
  | set => exact elements (op₂_applies hP .setMem ha hb)
  | seq => exact elements (op₂_applies hP .seqContains ha hb)
  | multiset =>
    exact elements (Expr.appliesOnly_lt.2
      ⟨Expr.appliesOnly_nat 0, op₂_applies hP .multiplicity ha hb⟩)
  | _ => exact Heap.isFresh_applies hP hold ha

theorem letUnboxed_applies (x : Source.Binder) (ha : a.AppliesOnly P) :
    (letUnboxed x a).AppliesOnly P :=
  .lets (List.forall_mem_singleton.2 (Boxing.unbox_applies hP x.2 (Expr.appliesOnly_var _))) ha

omit hP in
theorem intConst_applies (n : Int) : (intConst n).AppliesOnly P := by
  unfold intConst
  split
  · exact Expr.appliesOnly_sub.2 ⟨Expr.appliesOnly_nat 0, Expr.appliesOnly_nat _⟩
  · exact Expr.appliesOnly_nat _

omit hP in
theorem autoTriggers_applies (bound : List String) (ha : a.AppliesOnly P) :
    (autoTriggers bound a).Always env (Trigger.ApplyOnly P) := by
  refine .after fun options _ => .pure ?_
  split
  · exact Triggers.select_applies ha
  · exact .nil

omit hP in
theorem exAuto_applies (bs : List IL.Binder) (ha : a.AppliesOnly P) :
    (exAuto bs a).Always env (AppliesOnly P) :=
  (autoTriggers_applies _ ha).bind fun _ hts => .pure (.ex hts ha)

theorem caseBindings_applies {d : Datatype} {dt : Path} (hd : env.context.datatype dt = .ok d)
    (p : Pattern) (hs : s.AppliesOnly P) :
    (caseBindings d dt p s).Always env fun bs => ∀ u ∈ bs, u.2.AppliesOnly P := by
  refine .after fun k hk => .pure (List.forall_mem_map.2 fun q hq => ?_)
  have hfield := (List.of_mem_zip hq).2
  exact Boxing.convert_applies hP _ _ (Expr.appliesOnly_app.2
    ⟨hP (.destructor hd hk hfield), List.forall_mem_singleton.2 hs⟩)

theorem display_applies (kind : Collection) :
    (displayOps kind).1.AppliesOnly P ∧ ∀ {a b : IL.Expr}, a.AppliesOnly P → b.AppliesOnly P →
      ((displayOps kind).2 a b).AppliesOnly P := by
  refine ⟨?_, fun ha hb => ?_⟩
  · cases kind <;> exact Expr.appliesOnly_var _
  · cases kind with
    | set => exact op₂_applies hP .setUnionOne ha hb
    | multiset => exact op₂_applies hP .multisetUnionOne ha hb
    | seq => exact op₂_applies hP .seqBuild ha hb

end

/-! ## Expressions -/

/-- In every view that a property admits, an expression is lowered to applications that have it. -/
def Source.Expr.LowersTo (P : String → Prop) (env : Env) (e : Source.Expr) : Prop :=
  ∀ v, Admits P env v → (lowerExpr v e).Always env (AppliesOnly P)

theorem lowerExpr?_applies_of (hv : Admits P env v) {x : Option Source.Expr}
    (h : ∀ e ∈ x, e.LowersTo P env) :
    (lowerExpr? v x).Always env fun o => ∀ e ∈ o, e.AppliesOnly P := by
  cases x with
  | none => exact .pure nofun
  | some e => exact (h e rfl v hv).bind fun _ ha => .pure (WhereClause.some_applies ha)

theorem receiverArgs_applies_of (hv : Admits P env v) (owner : Option Path)
    {receiver : Option Source.Expr} (h : ∀ e ∈ receiver, e.LowersTo P env) :
    (receiverArgs v owner receiver).Always env fun es => ∀ e ∈ es, e.AppliesOnly P := by
  cases owner with
  | none => exact .pure (List.forall_mem_nil _)
  | some p =>
    cases receiver with
    | none => exact .pure (List.forall_mem_singleton.2 (Expr.appliesOnly_var _))
    | some e => exact (h e rfl v hv).bind fun _ ha => .pure (List.forall_mem_singleton.2 ha)

theorem lowerArgs_applies_of (hv : Admits P env v) {xs : List Source.Expr}
    (h : ∀ e ∈ xs, e.LowersTo P env) (params : List Source.Binder) :
    (lowerArgs v params xs).Always env fun es => ∀ e ∈ es, e.AppliesOnly P := by
  induction xs generalizing params with
  | nil => exact .pure (List.forall_mem_nil _)
  | cons x xs ih =>
    obtain ⟨hx, hxs⟩ := List.forall_mem_cons.1 h
    cases params with
    | nil => exact .pure (List.forall_mem_nil _)
    | cons p params =>
      exact (hx v hv).bind fun _ ha => (ih hxs params).bind fun _ has => .pure
        (List.forall_mem_cons.2 ⟨Boxing.convert_applies hv.foreign _ _ ha, has⟩)

theorem lowerElements_applies_of (hv : Admits P env v) {xs : List Source.Expr}
    (h : ∀ e ∈ xs, e.LowersTo P env) (elem : Typ) {add : IL.Expr → IL.Expr → IL.Expr}
    (hadd : ∀ {a b}, a.AppliesOnly P → b.AppliesOnly P → (add a b).AppliesOnly P)
    (ha : a.AppliesOnly P) : (lowerElements v elem add a xs).Always env (AppliesOnly P) := by
  induction xs generalizing a with
  | nil => exact .pure ha
  | cons x xs ih =>
    obtain ⟨hx, hxs⟩ := List.forall_mem_cons.1 h
    exact (hx v hv).bind fun _ hb => ih hxs (hadd ha
      (Boxing.box_applies hv.foreign elem (Boxing.convert_applies hv.foreign _ _ hb)))

theorem lowerEntries_applies_of (hv : Admits P env v) {kvs : List (Source.Expr × Source.Expr)}
    (h : ∀ p ∈ kvs, p.1.LowersTo P env ∧ p.2.LowersTo P env) (key value : Typ)
    (ha : a.AppliesOnly P) : (lowerEntries v key value a kvs).Always env (AppliesOnly P) := by
  have hbox (t u : Typ) {e : IL.Expr} (he : e.AppliesOnly P) :=
    Boxing.box_applies hv.foreign t (Boxing.convert_applies hv.foreign u t he)
  induction kvs generalizing a with
  | nil => exact .pure ha
  | cons p kvs ih =>
    obtain ⟨⟨hk, hx⟩, hrest⟩ := List.forall_mem_cons.1 h
    exact (hk v hv).bind fun _ hk => (hx v hv).bind fun _ hx => ih hrest
      (op₃_applies hv.foreign .mapBuild ha (hbox key _ hk) (hbox value _ hx))

theorem lowerBindings_applies_of (hv : Admits P env v) {bs : List (String × Source.Expr)}
    (h : ∀ p ∈ bs, p.2.LowersTo P env) :
    (lowerBindings v bs).Always env fun us => ∀ u ∈ us, u.2.AppliesOnly P := by
  induction bs with
  | nil => exact .pure (List.forall_mem_nil _)
  | cons p bs ih =>
    obtain ⟨hp, hbs⟩ := List.forall_mem_cons.1 h
    exact (hp v hv).bind fun _ ha => (ih hbs).bind fun _ has =>
      .pure (List.forall_mem_cons.2 ⟨ha, has⟩)

theorem lowerArms_applies_of (hv : Admits P env v) {d : Datatype} {dt : Path}
    (hd : env.context.datatype dt = .ok d) (hs : s.AppliesOnly P) (result : Typ)
    {arms : List (Pattern × Source.Expr)} (h : ∀ p ∈ arms, p.2.LowersTo P env) :
    (lowerArms v d dt s result arms).Always env fun o => ∀ e ∈ o, e.AppliesOnly P := by
  induction arms with
  | nil => exact .pure nofun
  | cons p arms ih =>
    obtain ⟨hp, harms⟩ := List.forall_mem_cons.1 h
    refine (ih harms).bind fun otherwise hrest =>
      (caseBindings_applies hv.foreign hd p.1 hs).bind fun _ hbs => (hp v hv).bind fun _ hb => ?_
    have harm := AppliesOnly.lets hbs (Boxing.convert_applies hv.foreign p.2.typ result hb)
    cases otherwise with
    | none => exact .pure (WhereClause.some_applies harm)
    | some cascade =>
      have htest : (IL.Expr.app (Naming.isCtor dt p.1.ctor) [s]).AppliesOnly P :=
        Expr.appliesOnly_app.2 ⟨hv.foreign (.isCtor dt p.1.ctor), List.forall_mem_singleton.2 hs⟩
      exact .pure (WhereClause.some_applies (.cond htest harm (hrest cascade rfl)))

theorem lowerTerms_applies_of (hv : Admits P env v) {xs : List Source.Expr}
    (h : ∀ e ∈ xs, e.LowersTo P env) :
    (lowerTerms v xs).Always env fun es => ∀ e ∈ es, e.AppliesOnly P := by
  induction xs with
  | nil => exact .pure (List.forall_mem_nil _)
  | cons x xs ih =>
    obtain ⟨hx, hxs⟩ := List.forall_mem_cons.1 h
    exact (hx v hv).bind fun _ ha => (ih hxs).bind fun _ has =>
      .pure (List.forall_mem_cons.2 ⟨ha, has⟩)

theorem lowerTriggers_applies_of (hv : Admits P env v) {ts : List (List Source.Expr)}
    (h : ∀ t ∈ ts, ∀ e ∈ t, e.LowersTo P env) :
    (lowerTriggers v ts).Always env (Trigger.ApplyOnly P) := by
  induction ts with
  | nil => exact .pure .nil
  | cons t ts ih =>
    obtain ⟨ht, hts⟩ := List.forall_mem_cons.1 h
    exact (lowerTerms_applies_of hv ht).bind fun _ ha => (ih hts).bind fun _ has =>
      .pure (List.forall_mem_cons.2 ⟨ha, has⟩)

theorem setPredicate_applies_of (hv : Admits P env v) (i : Info) (bs : List Source.Binder)
    {term : Option Source.Expr} (hterm : ∀ e ∈ term, e.LowersTo P env) {w r : IL.Expr}
    (hw : w.AppliesOnly P) (hr : r.AppliesOnly P) :
    (setPredicate v i bs term w r).Always env (AppliesOnly P) := by
  unfold setPredicate
  split
  · exact .pure (letUnboxed_applies hv.foreign _ (conj₂ hw hr))
  · cases term with
    | none => exact .broken _
    | some t =>
      exact .after fun elem _ => (hterm t rfl v hv).bind fun _ ht =>
        exAuto_applies _ (conj₃ hw hr (Expr.appliesOnly_eq.2 ⟨Expr.appliesOnly_var _,
          Boxing.box_applies hv.foreign elem (Boxing.convert_applies hv.foreign _ _ ht)⟩))

/-- Calls refer to the layers that a view admits. -/
theorem lowersTo_call (i : Info) {f : Path} {receiver : Option Source.Expr}
    {args : List Source.Expr} (hr : ∀ e ∈ receiver, e.LowersTo P env)
    (hargs : ∀ e ∈ args, e.LowersTo P env) :
    (Source.Expr.call i f receiver args).LowersTo P env := by
  intro v hv
  rw [lowerExpr_call]
  refine .after fun callee hcallee => .after fun layer hlayer =>
    (receiverArgs_applies_of hv _ hr).bind fun _ hrecv =>
      (lowerArgs_applies_of hv hargs _).bind fun _ hrest => .pure ?_
  rw [returns_callLayer.1 hlayer]
  refine Boxing.convert_applies hv.foreign _ _ (Expr.appliesOnly_app.2
    ⟨hv.call (ExprM.returns_function.1 hcallee), ?_⟩)
  refine List.forall_mem_append.2 ⟨List.forall_mem_append.2 ⟨?_, hrecv⟩, hrest⟩
  unfold heapArgs
  split
  · exact List.forall_mem_nil _
  · exact List.forall_mem_singleton.2 hv.heap

/-- Whatever an expression is and however deep calls are nested in it. -/
theorem lowerExpr_applies (e : Source.Expr) : e.LowersTo P env := by
  induction e using Source.Expr.recData with
  | bool | null | var | this => exact fun _ _ => .pure (List.forall_mem_nil _)
  | int i n => exact fun _ _ => .pure (intConst_applies n)
  | field i e f ih =>
    intro v hv
    refine .after fun fld hfld => .after fun handle hhandle => (ih v hv).bind fun _ ha => .pure ?_
    rw [Heap.returns_fieldHandle.1 hhandle]
    have hid := Context.id_of_field (ExprM.returns_field.1 hfld)
    have hfield : env.context.field fld.id = .ok fld := hid ▸ ExprM.returns_field.1 hfld
    exact Boxing.convert_applies hv.foreign _ _
      (Heap.readField_applies hv.foreign hfield hv.heap ha)
  | index i a b iha ihb =>
    exact fun v hv => (iha v hv).bind fun _ ha => (ihb v hv).bind fun _ hb =>
      lowerIndex_applies hv.foreign _ _ _ hv.heap ha hb
  | slice i e lo hi ih ihlo ihhi =>
    intro v hv
    refine (ih v hv).bind fun _ ha => (lowerExpr?_applies_of hv ihlo).bind fun _ hlo =>
      (lowerExpr?_applies_of hv ihhi).bind fun _ hhi => .pure (seqSlice_applies hv.foreign ?_ hlo hhi)
    split
    · exact op₂_applies hv.foreign .seqFromArray hv.heap ha
    · exact ha
  | update i a b c iha ihb ihc =>
    exact fun v hv => (iha v hv).bind fun _ ha => (ihb v hv).bind fun _ hb =>
      (ihc v hv).bind fun _ hc => lowerUpdate_applies hv.foreign _ _ ha hb hc
  | arrayLength i e ih =>
    intro v hv
    refine (ih v hv).bind fun a ha b hb => ?_
    rw [Heap.returns_arrayLength.1 hb]
    exact op₁_applies hv.foreign .arrayLength ha
  | display i kind es ih =>
    intro v hv
    obtain ⟨hempty, hadd⟩ := display_applies hv.foreign kind
    exact .after fun elem _ => lowerElements_applies_of hv ih elem hadd hempty
  | mapDisplay i kvs ih =>
    exact fun v hv => .after fun kt _ =>
      lowerEntries_applies_of hv ih kt.1 kt.2 (Expr.appliesOnly_var _)
  | ctor i d c es ih =>
    exact fun v hv => .after fun d hd => .after fun k hk =>
      (lowerArgs_applies_of hv ih _).bind fun _ has => .pure (Expr.appliesOnly_app.2
        ⟨hv.foreign (.ctor (ExprM.returns_datatype.1 hd) (ExprM.returns_ofExcept.1 hk)), has⟩)
  | destruct i e d c f ih =>
    intro v hv
    refine .after fun d hd => .after fun k hk => .after fun fld hfld => (ih v hv).bind fun _ ha =>
      .pure (Boxing.convert_applies hv.foreign _ _ (Expr.appliesOnly_app.2
        ⟨?_, List.forall_mem_singleton.2 ha⟩))
    obtain ⟨hmem, rfl⟩ := Ctor.mem_of_field (ExprM.returns_ofExcept.1 hfld)
    exact hv.foreign
      (.destructor (ExprM.returns_datatype.1 hd) (ExprM.returns_ofExcept.1 hk) hmem)
  | isCtor i e d c ih =>
    exact fun v hv => (ih v hv).bind fun _ ha => .pure (Expr.appliesOnly_app.2
      ⟨hv.foreign (.isCtor d c), List.forall_mem_singleton.2 ha⟩)
  | old i e ih => exact fun v hv => ih v.old hv.old
  | fresh i e ih =>
    exact fun v hv => (ih v hv).bind fun _ ha =>
      .pure (lowerFresh_applies hv.foreign _ hv.oldHeap ha)
  | unary i op e ih =>
    intro v hv
    cases op with
    | not => exact (ih v hv).bind fun _ ha => .pure (Expr.appliesOnly_neg.2 ha)
    | neg =>
      exact (ih v hv).bind fun _ ha =>
        .pure (Expr.appliesOnly_sub.2 ⟨Expr.appliesOnly_nat 0, ha⟩)
    | card =>
      exact .after fun size hsize => (ih v hv).bind fun _ ha =>
        .pure (lowerCard_applies hv.foreign _ ha size hsize)
  | binary i op a b iha ihb =>
    exact fun v hv => (iha v hv).bind fun _ ha => (ihb v hv).bind fun _ hb =>
      lowerBinary_applies hv.foreign op _ _ ha hb
  | quant i q bs r b ts ind ihr ihb iht =>
    intro v hv x hx
    obtain ⟨w, hw, r', hr, b', hb, chosen, hchosen, rfl⟩ := returns_lowerExpr_quant.1 hx
    have hw := bindersWhere_applies hv.foreign bs hv.heap w hw
    have hr := lowerExpr?_applies_of hv ihr r' hr
    have hb := ihb v hv b' hb
    have hmatrix : (quantMatrix q w r' b').AppliesOnly P := by
      have hrange : (r'.getD .tt).AppliesOnly P := by
        cases r' with
        | none => exact Expr.appliesOnly_bool _
        | some r' => exact hr r' rfl
      cases q with
      | all => exact imp (conj₂ hw hrange) hb
      | ex => exact conj₃ hw hrange hb
    refine .quantify ?_ hmatrix
    unfold chosenTriggers at hchosen
    split at hchosen
    · exact autoTriggers_applies _ hmatrix chosen hchosen
    · exact lowerTriggers_applies_of hv iht chosen hchosen
  | setComp i bs r t ihr iht =>
    intro v hv
    rw [lowerExpr_setComp]
    exact (bindersWhere_applies hv.foreign bs hv.heap).bind fun _ hw => (ihr v hv).bind fun _ hr =>
      (setPredicate_applies_of hv i bs iht hw hr).bind fun _ hp =>
        .pure (op₁_applies hv.foreign .setFromPredicate (Expr.appliesOnly_lambda.2 hp))
  | mapComp i b r t ihr iht =>
    intro v hv
    refine .after fun kt _ => (bindersWhere_applies hv.foreign [b] hv.heap).bind fun _ hw =>
      (ihr v hv).bind fun _ hr => (iht v hv).bind fun _ ht => .pure ?_
    have hvalue := Boxing.box_applies hv.foreign kt.2
      (Boxing.convert_applies hv.foreign t.typ kt.2 ht)
    exact op₂_applies hv.foreign .mapGlue
      (op₁_applies hv.foreign .setFromPredicate
        (Expr.appliesOnly_lambda.2 (letUnboxed_applies hv.foreign b (conj₂ hw hr))))
      (Expr.appliesOnly_lambda.2 (letUnboxed_applies hv.foreign b hvalue))
  | letIn i bs b ihbs ihb =>
    exact fun v hv => (lowerBindings_applies_of hv ihbs).bind fun _ hbs =>
      (ihb v hv).bind fun _ hb => .pure (.lets hbs hb)
  | ite i c a b ihc iha ihb =>
    exact fun v hv => (iha v hv).bind fun _ ha => (ihb v hv).bind fun _ hb =>
      (ihc v hv).bind fun _ hc => .pure (.cond hc
        (Boxing.convert_applies hv.foreign _ _ ha) (Boxing.convert_applies hv.foreign _ _ hb))
  | cases i e arms ihe iharms =>
    intro v hv x hx
    obtain ⟨s, hs, dt, -, d, hd, hx⟩ := returns_lowerExpr_cases.1 hx
    exact lowerArms_applies_of hv hd (ihe v hv s hs) i.typ iharms (some x) hx x rfl
  | call i f r es ihr ihes => exact lowersTo_call i ihr ihes

theorem lowerExpr?_applies (hv : Admits P env v) (x : Option Source.Expr) :
    (lowerExpr? v x).Always env fun o => ∀ e ∈ o, e.AppliesOnly P :=
  lowerExpr?_applies_of hv fun e _ => lowerExpr_applies e

theorem lowerTerms_applies (hv : Admits P env v) (xs : List Source.Expr) :
    (lowerTerms v xs).Always env fun es => ∀ e ∈ es, e.AppliesOnly P :=
  lowerTerms_applies_of hv fun e _ => lowerExpr_applies e

theorem frameContains_applies (hv : Admits P env v) (frame : List Source.Expr)
    (ho : o.AppliesOnly P) : (frameContains v frame o).Always env (AppliesOnly P) := by
  refine .bind (P := fun es : List IL.Expr => ∀ e ∈ es, e.AppliesOnly P) (.mapM fun e _ => ?_)
    fun _ hentries => .pure (disj hentries)
  refine (lowerExpr_applies e v hv).bind fun a ha => .pure ?_
  have hbox : (Boxing.boxRef o).AppliesOnly P := op₁_applies hv.foreign (.box .ref) ho
  cases e.typ with
  | set => exact op₂_applies hv.foreign .setMem ha hbox
  | multiset =>
    exact Expr.appliesOnly_lt.2
      ⟨Expr.appliesOnly_nat 0, op₂_applies hv.foreign .multiplicity ha hbox⟩
  | seq => exact op₂_applies hv.foreign .seqContains ha hbox
  | _ => exact Expr.appliesOnly_eq.2 ⟨ho, ha⟩

/-! ## Facts of calls -/

theorem lowerCallArgs_applies (hv : Admits P env v) (f : Path) (receiver : Option Source.Expr)
    (args : List Source.Expr) :
    (lowerCallArgs v f receiver args).Always env fun es => ∀ e ∈ es, e.AppliesOnly P := by
  intro es hes
  obtain ⟨callee, -, recv, hrecv, rest, hrest, rfl⟩ := returns_lowerCallArgs.1 hes
  refine List.forall_mem_append.2 ⟨List.forall_mem_append.2 ⟨?_, ?_⟩, ?_⟩
  · unfold heapArgs
    split
    · exact List.forall_mem_nil _
    · exact List.forall_mem_singleton.2 hv.heap
  · exact receiverArgs_applies_of hv _ (fun e _ => lowerExpr_applies e) recv hrecv
  · exact lowerArgs_applies_of hv (fun e _ => lowerExpr_applies e) _ rest hrest

theorem Frame.guard_applies (auto : Bool) (hc : c.AppliesOnly P) (h : ∀ e ∈ es, e.AppliesOnly P) :
    ∀ e ∈ (Frame.guard c).under auto es, e.AppliesOnly P := by
  intro e he
  obtain ⟨u, hu, rfl⟩ := List.mem_map.1 (List.mem_of_mem_filter he)
  exact imp hc (h u hu)

theorem Frame.bind_applies (auto : Bool) {bs : List (String × IL.Expr)}
    (hbs : ∀ u ∈ bs, u.2.AppliesOnly P) (h : ∀ e ∈ es, e.AppliesOnly P) :
    ∀ e ∈ (Frame.bind bs).under auto es, e.AppliesOnly P := by
  intro e he
  obtain ⟨u, hu, rfl⟩ := List.mem_map.1 (List.mem_of_mem_filter he)
  simp only [Frame.wrap]
  split
  · exact h u hu
  · exact .lets hbs (h u hu)

theorem Frame.ofBinders_applies (hv : Admits P env v) (auto : Bool) (bs : List Source.Binder)
    (h : ∀ e ∈ es, e.AppliesOnly P) :
    (Frame.ofBinders v bs >>= fun frame => pure (frame.under auto es)).Always env
      fun us => ∀ u ∈ us, u.AppliesOnly P := by
  rw [Frame.ofBinders, bind_assoc]
  refine (bindersWhere_applies hv.foreign bs hv.heap).bind fun w hw => .pure fun e he => ?_
  obtain ⟨u, hu, rfl⟩ := List.mem_map.1 (List.mem_of_mem_filter he)
  simp only [Frame.wrap]
  split
  · exact h u hu
  · have hmatrix := imp hw (h u hu)
    refine .all ?_ hmatrix
    split
    · exact Triggers.select_applies hmatrix
    · exact .nil

/-- In every view that a property admits, what is collected of an expression has it. -/
def Source.Expr.CollectsTo (P : String → Prop) (env : Env) (kind : Collected) (e : Source.Expr) :
    Prop :=
  ∀ v, Admits P env v → (collect kind v e).Always env fun es => ∀ e ∈ es, e.AppliesOnly P

theorem canCallFact?_applies (hv : Admits P env v) (e : Source.Expr) :
    (canCallFact? v e).Always env fun o => ∀ a ∈ o, a.AppliesOnly P := by
  cases e with
  | call i f r es =>
    intro fact hfact
    simp only [canCallFact?, ExprM.returns_bind, ExprM.returns_pure] at hfact
    obtain ⟨values, hvalues, rfl⟩ := hfact
    obtain ⟨callee, hcallee, -⟩ := returns_lowerCallArgs.1 hvalues
    exact WhereClause.some_applies (Expr.appliesOnly_app.2
      ⟨hv.canCall hcallee, lowerCallArgs_applies hv f r es values hvalues⟩)
  | _ => exact .pure (by simp)

theorem collectNode_facts_applies (hv : Admits P env v) (e : Source.Expr) :
    (collectNode .facts v e).Always env fun es => ∀ e ∈ es, e.AppliesOnly P :=
  (canCallFact?_applies hv e).bind fun _ ho => .given (.pure fun c hc =>
    ho c (Option.mem_toList.1 (List.mem_of_mem_filter hc)))

/-- What the parts give and then what the operation adds. -/
theorem append_applies {x y : ExprM (List IL.Expr)}
    (hx : x.Always env fun es => ∀ e ∈ es, e.AppliesOnly P)
    (hy : y.Always env fun es => ∀ e ∈ es, e.AppliesOnly P) :
    (x >>= fun as => y >>= fun bs => pure (as ++ bs)).Always env
      fun es => ∀ e ∈ es, e.AppliesOnly P :=
  hx.bind fun _ has => hy.bind fun _ hbs => .pure (List.forall_mem_append.2 ⟨has, hbs⟩)

variable {kind : Collected}

theorem collect?_applies_of (hv : Admits P env v) {x : Option Source.Expr}
    (h : ∀ e ∈ x, e.CollectsTo P env kind) :
    (collect? kind v x).Always env fun es => ∀ e ∈ es, e.AppliesOnly P := by
  cases x with
  | none => exact .pure (List.forall_mem_nil _)
  | some e => exact h e rfl v hv

theorem collectList_applies_of (hv : Admits P env v) {xs : List Source.Expr}
    (h : ∀ e ∈ xs, e.CollectsTo P env kind) :
    (collectList kind v xs).Always env fun es => ∀ e ∈ es, e.AppliesOnly P := by
  induction xs with
  | nil => exact .pure (List.forall_mem_nil _)
  | cons x xs ih =>
    obtain ⟨hx, hxs⟩ := List.forall_mem_cons.1 h
    exact append_applies (hx v hv) (ih hxs)

theorem collectEntries_applies_of (hv : Admits P env v)
    {kvs : List (Source.Expr × Source.Expr)}
    (h : ∀ p ∈ kvs, p.1.CollectsTo P env kind ∧ p.2.CollectsTo P env kind) :
    (collectEntries kind v kvs).Always env fun es => ∀ e ∈ es, e.AppliesOnly P := by
  induction kvs with
  | nil => exact .pure (List.forall_mem_nil _)
  | cons p kvs ih =>
    obtain ⟨⟨hk, hx⟩, hrest⟩ := List.forall_mem_cons.1 h
    exact (hk v hv).bind fun _ hk => (hx v hv).bind fun _ hx => (ih hrest).bind fun _ hrest =>
      .pure (List.forall_mem_append.2 ⟨List.forall_mem_append.2 ⟨hk, hx⟩, hrest⟩)

theorem collectBindings_applies_of (hv : Admits P env v) {bs : List (String × Source.Expr)}
    (h : ∀ p ∈ bs, p.2.CollectsTo P env kind) :
    (collectBindings kind v bs).Always env fun es => ∀ e ∈ es, e.AppliesOnly P := by
  induction bs with
  | nil => exact .pure (List.forall_mem_nil _)
  | cons p bs ih =>
    obtain ⟨hp, hbs⟩ := List.forall_mem_cons.1 h
    exact append_applies (hp v hv) (ih hbs)

theorem guardOfFirst?_applies {op : Source.BinOp} {guard : IL.Expr → IL.Expr}
    (h : guardOfFirst? op = some guard) (ha : a.AppliesOnly P) : (guard a).AppliesOnly P := by
  cases op <;> cases h
  · exact ha
  · exact Expr.appliesOnly_neg.2 ha
  · exact ha

theorem collectMissing_applies (kind : Collected) (span : Span) (ctor : String) :
    ∀ e ∈ collectMissing kind span ctor, e.AppliesOnly P := by
  cases kind with
  | obligations => exact List.forall_mem_singleton.2 (Expr.appliesOnly_bool _)
  | facts => exact List.forall_mem_nil _

/-- What is collected applies what the single operations contribute, under conditions that are
lowered too. -/
theorem collect_applies_of (hnode : ∀ v, Admits P env v → ∀ e,
    (collectNode kind v e).Always env fun es => ∀ e ∈ es, e.AppliesOnly P) (e : Source.Expr) :
    e.CollectsTo P env kind := by
  induction e using Source.Expr.recData with
  | bool | int | null | var | this => exact fun v _ => .pure (List.forall_mem_nil _)
  | field i e f ih | arrayLength i e ih | destruct i e d c f ih =>
    exact fun v hv => append_applies (ih v hv) (hnode v hv _)
  | isCtor i e d c ih | fresh i e ih | unary i op e ih => exact fun v hv => ih v hv
  | index i a b iha ihb =>
    exact fun v hv => (iha v hv).bind fun _ ha => (ihb v hv).bind fun _ hb =>
      (hnode v hv _).bind fun _ hn =>
        .pure (List.forall_mem_append.2 ⟨List.forall_mem_append.2 ⟨ha, hb⟩, hn⟩)
  | slice i e lo hi ih ihlo ihhi =>
    exact fun v hv => (ih v hv).bind fun _ ha => (collect?_applies_of hv ihlo).bind fun _ hlo =>
      (collect?_applies_of hv ihhi).bind fun _ hhi => (hnode v hv _).bind fun _ hn =>
        .pure (List.forall_mem_append.2 ⟨List.forall_mem_append.2
          ⟨List.forall_mem_append.2 ⟨ha, hlo⟩, hhi⟩, hn⟩)
  | update i a b c iha ihb ihc =>
    exact fun v hv => (iha v hv).bind fun _ ha => (ihb v hv).bind fun _ hb =>
      (ihc v hv).bind fun _ hc => (hnode v hv _).bind fun _ hn =>
        .pure (List.forall_mem_append.2 ⟨List.forall_mem_append.2
          ⟨List.forall_mem_append.2 ⟨ha, hb⟩, hc⟩, hn⟩)
  | display i k es ih => exact fun v hv => collectList_applies_of hv ih
  | mapDisplay i kvs ih => exact fun v hv => collectEntries_applies_of hv ih
  | ctor i d c es ih =>
    exact fun v hv => append_applies (collectList_applies_of hv ih) (hnode v hv _)
  | old i e ih => exact fun v hv => ih v.old hv.old
  | binary i op a b iha ihb =>
    intro v hv
    rw [collect]
    cases hop : guardOfFirst? op with
    | some guard =>
      exact .after fun options _ => (lowerExpr_applies a v hv).bind fun _ hx =>
        (iha v hv).bind fun _ ha => (ihb v hv).bind fun _ hb => .pure
          (List.forall_mem_append.2 ⟨ha, Frame.guard_applies _ (guardOfFirst?_applies hop hx) hb⟩)
    | none =>
      exact (iha v hv).bind fun _ ha => (ihb v hv).bind fun _ hb => (hnode v hv _).bind fun _ hn =>
        .pure (List.forall_mem_append.2 ⟨List.forall_mem_append.2 ⟨ha, hb⟩, hn⟩)
  | quant i q bs r b ts ind ihr ihb iht =>
    intro v hv
    cases r with
    | none =>
      exact .after fun options _ => (ihb v hv).bind fun _ hb => Frame.ofBinders_applies hv _ bs hb
    | some r =>
      exact .after fun options _ => (ihr r rfl v hv).bind fun _ hr =>
        (lowerExpr_applies r v hv).bind fun _ hx => (ihb v hv).bind fun _ hb => .given
          (Frame.ofBinders_applies hv _ bs
            (List.forall_mem_append.2 ⟨hr, Frame.guard_applies _ hx hb⟩))
  | setComp i bs r t ihr iht =>
    intro v hv
    cases t with
    | none =>
      exact .after fun options _ => (ihr v hv).bind fun _ hr =>
        .given (Frame.ofBinders_applies hv _ bs hr)
    | some t =>
      exact .after fun options _ => (ihr v hv).bind fun _ hr =>
        (lowerExpr_applies r v hv).bind fun _ hx => (iht t rfl v hv).bind fun _ ht => .given
          (Frame.ofBinders_applies hv _ bs
            (List.forall_mem_append.2 ⟨hr, Frame.guard_applies _ hx ht⟩))
  | mapComp i b r t ihr iht =>
    intro v hv
    refine .after fun options _ => (ihr v hv).bind fun _ hr =>
      (lowerExpr_applies r v hv).bind fun _ hx => (iht v hv).bind fun _ ht =>
        Frame.ofBinders_applies hv _ [b]
          (List.forall_mem_append.2 ⟨hr, Frame.guard_applies _ hx ht⟩)
  | letIn i bs b ihbs ihb =>
    exact fun v hv => .after fun options _ => (collectBindings_applies_of hv ihbs).bind fun _ hbs =>
      (lowerBindings_applies_of hv fun p _ => lowerExpr_applies p.2).bind fun _ hvalues =>
        (ihb v hv).bind fun _ hb =>
          .pure (List.forall_mem_append.2 ⟨hbs, Frame.bind_applies _ hvalues hb⟩)
  | ite i c a b ihc iha ihb =>
    exact fun v hv => .after fun options _ => (lowerExpr_applies c v hv).bind fun _ hx =>
      (ihc v hv).bind fun _ hc => (iha v hv).bind fun _ ha => (ihb v hv).bind fun _ hb =>
        .pure (List.forall_mem_append.2 ⟨List.forall_mem_append.2
          ⟨hc, Frame.guard_applies _ hx ha⟩,
          Frame.guard_applies _ (Expr.appliesOnly_neg.2 hx) hb⟩)
  | cases i e arms ihe iharms =>
    intro v hv
    refine .after fun options _ => .after fun dt _ => (lowerExpr_applies e v hv).bind fun s hs =>
      (ihe v hv).bind fun _ hfirst => .after fun d hd =>
        .bind (P := fun ess : List (List IL.Expr) => ∀ es ∈ ess, ∀ e ∈ es, e.AppliesOnly P)
          (.mapM fun k _ => ?_) fun ess hess =>
            .pure (List.forall_mem_append.2 ⟨hfirst, fun u hu => ?_⟩)
    · have htest : (IL.Expr.app (Naming.isCtor dt k.name) [s]).AppliesOnly P :=
        Expr.appliesOnly_app.2 ⟨hv.foreign (.isCtor dt k.name), List.forall_mem_singleton.2 hs⟩
      rw [collectArms_eq, List.find?_map]
      cases hp : arms.find? ((·.1.ctor == k.name) ∘ fun p => (p.1, collect kind v p.2)) with
      | none =>
        exact .given (.pure
          (Frame.guard_applies _ htest (collectMissing_applies kind i.span k.name)))
      | some p =>
        exact (caseBindings_applies hv.foreign (ExprM.returns_datatype.1 hd) p.1 hs).bind
          fun _ hbs => (iharms p (List.mem_of_find?_eq_some hp) v hv).bind fun _ hbody =>
            .given (.pure (Frame.guard_applies _ htest (Frame.bind_applies _ hbs hbody)))
    · obtain ⟨es, hes, hu⟩ := List.mem_flatten.1 hu
      exact hess es hes u hu
  | call i f r es ihr ihes =>
    exact fun v hv => (collect?_applies_of hv ihr).bind fun _ hr =>
      (collectList_applies_of hv ihes).bind fun _ hes => (hnode v hv _).bind fun _ hn =>
        .pure (List.forall_mem_append.2 ⟨List.forall_mem_append.2 ⟨hr, hes⟩, hn⟩)

/-- The facts of the calls in an expression. -/
theorem canCall_applies (hv : Admits P env v) (e : Source.Expr) :
    (canCall v e).Always env (AppliesOnly P) :=
  (collect_applies_of (fun _ hv => collectNode_facts_applies hv) e v hv).bind fun _ hes =>
    .pure (conj hes)

end

end ContractLowering
