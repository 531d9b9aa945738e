import ContractLowering.Proofs.Lowering.ExprReturns
import ContractLowering.Proofs.Lowering.Rename
import ContractLowering.Proofs.Lowering.Vocabulary

/-!
# Names in scope of lowered code

Lowered code refers to constants, heaps and the receiver by name, and source variables keep their
names. `Scope` says that the names in scope have the sorts that both uses need. It stays true below
the binders of lowered code, and below those of the source as long as they take no reserved name.

Where clauses are the first use of it: they are Boolean wherever their values have their sorts
(`WhereClause.clause_sorted`).
-/

namespace ContractLowering

open IL Source

/-! ## Names of lowered code -/

theorem Generated.dot_notMem {x : String} (h : Generated x) : '.' ∉ x.toList := by
  have hdigits : ∀ n : Nat, '.' ∉ Nat.toDigits 10 n := by
    intro n hn
    exact absurd (Nat.isDigit_of_mem_toDigits (by decide) (by decide) hn) (by decide)
  cases h with
  | box => decide
  | boxAt d => simp [WhereClause.boxVar, Naming.boxVar, hdigits]
  | indexAt d => simp [WhereClause.indexVar, Naming.indexVar, hdigits]

theorem Generated.head {x : String} (h : Generated x) : x.toList.head? = some '$' := by
  cases h with
  | box => decide
  | boxAt d => simp [WhereClause.boxVar, Naming.boxVar]
  | indexAt d => simp [WhereClause.indexVar, Naming.indexVar]

theorem not_generated_field (f : FieldId) : ¬ Generated (Naming.field f) := by
  intro h
  exact h.dot_notMem (by simp [Naming.field])

theorem not_generated_cls (p : Path) : ¬ Generated (Naming.cls p) := by
  intro h
  simpa [Naming.cls] using h.head

theorem not_generated_const {x : String} (hx : x ∈ preludeConstants) : ¬ Generated x := by
  intro h
  have hhead := h.head
  simp only [preludeConstants, List.mem_cons, List.not_mem_nil, or_false] at hx
  rcases hx with rfl | rfl | rfl | rfl | rfl | rfl <;> revert hhead <;> decide

namespace WhereClause

theorem boxVar_ne_boxVar {d k : Nat} (h : d ≠ k) : boxVar d ≠ boxVar k := by
  intro heq
  exact h (Naming.repr_inj (by simpa [boxVar] using heq))

theorem indexVar_ne_indexVar {d k : Nat} (h : d ≠ k) : indexVar d ≠ indexVar k := by
  intro heq
  exact h (Naming.repr_inj (by simpa [indexVar] using heq))

theorem boxVar_ne_indexVar (d k : Nat) : boxVar d ≠ indexVar k := by
  intro heq
  simpa [boxVar, indexVar, Naming.boxVar, Naming.indexVar] using congrArg String.toList heq

end WhereClause

/-! ## Scopes -/

/-- A signature for the declarations that an environment knows, with fields under the names they
are declared with. -/
structure Signed (Δ : Vocabulary) (env : Env) : Prop where
  covers : Δ.Covers env.context
  handle : ∀ f, env.context.field f.id = .ok f → env.handle f = .ofField f

/-- A heap and the constants of the heap model have their sorts. -/
structure Ground (Δ : Vocabulary) (heap : IL.Expr) (G : Sorts) : Prop where
  heap : heap.sort? Δ G = some Prelude.heapSort
  null : G "null" = some Prelude.refSort
  alloc : G "alloc" = some Prelude.fieldSort
  cls : ∀ p, G (Naming.cls p) = some Prelude.classNameSort

/-- The names in scope have the sorts that source variables and lowered code need. The sort of a
heap depends on the names it mentions alone. -/
structure Scope (Δ : Vocabulary) (env : Env) (v : View) (hasThis : Bool) (Γ : Typing) (G : Sorts) :
    Prop where
  vars : ∀ {x t}, Γ x = some t → ¬ Reserved env v x ∧ G x = some t.sort
  null : G "null" = some Prelude.refSort
  alloc : G "alloc" = some Prelude.fieldSort
  setEmpty : G "Set.Empty" = some Prelude.setSort
  multisetEmpty : G "MultiSet.Empty" = some Prelude.multisetSort
  seqEmpty : G "Seq.Empty" = some Prelude.seqSort
  mapEmpty : G "Map.Empty" = some Prelude.mapSort
  cls : ∀ p, G (Naming.cls p) = some Prelude.classNameSort
  field : ∀ f, env.context.field f.id = .ok f → f.isMutable = true →
    G (Naming.field f.id) = some Prelude.fieldSort
  this : hasThis = true → G (v.this.getD Naming.this) = some Prelude.refSort
  thisName : ¬ Generated (v.this.getD Naming.this)
  heap : ∀ {G' : Sorts}, (∀ x ∈ v.heap.names, G' x = G x) →
    v.heap.sort? Δ G' = some Prelude.heapSort
  oldHeap : ∀ {G' : Sorts}, (∀ x ∈ v.oldHeap.names, G' x = G x) →
    v.oldHeap.sort? Δ G' = some Prelude.heapSort
  heapNames : ∀ x ∈ v.heap.names ++ v.oldHeap.names, ¬ Generated x

namespace Scope

variable {Δ : Vocabulary} {env : Env} {v : View} {hasThis : Bool} {Γ Γ' : Typing} {G G' : Sorts}

theorem ground (h : Scope Δ env v hasThis Γ G) : Ground Δ v.heap G :=
  ⟨h.heap fun _ _ => rfl, h.null, h.alloc, h.cls⟩

theorem oldGround (h : Scope Δ env v hasThis Γ G) : Ground Δ v.oldHeap G :=
  ⟨h.oldHeap fun _ _ => rfl, h.null, h.alloc, h.cls⟩

theorem old (h : Scope Δ env v hasThis Γ G) : Scope Δ env v.old hasThis Γ G where
  vars hx := ⟨fun hr => (h.vars hx).1 hr.of_old, (h.vars hx).2⟩
  null := h.null
  alloc := h.alloc
  setEmpty := h.setEmpty
  multisetEmpty := h.multisetEmpty
  seqEmpty := h.seqEmpty
  mapEmpty := h.mapEmpty
  cls := h.cls
  field := h.field
  this := h.this
  thisName := h.thisName
  heap := h.oldHeap
  oldHeap := h.oldHeap
  heapNames x hx := h.heapNames x (by
    simp only [View.old, List.mem_append] at hx ⊢
    tauto)

/-- Sorts may change at names that are generated or not reserved. -/
theorem change (hS : Signed Δ env) (h : Scope Δ env v hasThis Γ G)
    (hG : ∀ x, Reserved env v x → ¬ Generated x → G' x = G x)
    (hvars : ∀ {x t}, Γ' x = some t → ¬ Reserved env v x ∧ G' x = some t.sort) :
    Scope Δ env v hasThis Γ' G' := by
  have hconst : ∀ x ∈ preludeConstants, G' x = G x :=
    fun x hx => hG x (.const hx) (not_generated_const hx)
  refine
    { vars := hvars
      null := (hconst _ (by decide)).trans h.null
      alloc := (hconst _ (by decide)).trans h.alloc
      setEmpty := (hconst _ (by decide)).trans h.setEmpty
      multisetEmpty := (hconst _ (by decide)).trans h.multisetEmpty
      seqEmpty := (hconst _ (by decide)).trans h.seqEmpty
      mapEmpty := (hconst _ (by decide)).trans h.mapEmpty
      cls := fun p => (hG _ (.cls p) (not_generated_cls p)).trans (h.cls p)
      field := fun f hf hmut => ?_
      this := fun hthis => (hG _ .this h.thisName).trans (h.this hthis)
      thisName := h.thisName
      heap := fun hG' => h.heap fun x hx => ?_
      oldHeap := fun hG' => h.oldHeap fun x hx => ?_
      heapNames := h.heapNames }
  · have hname : Reserved env v (Naming.field f.id) := by
      have hreserved : Reserved env v (env.handle f).name := .field hf
      rwa [hS.handle f hf] at hreserved
    exact (hG _ hname (not_generated_field f.id)).trans (h.field f hf hmut)
  · rw [hG' x hx, hG x (.heap hx) (h.heapNames x (by simp [hx]))]
  · rw [hG' x hx, hG x (.oldHeap hx) (h.heapNames x (by simp [hx]))]

/-- Generated names may get any sort. -/
theorem generated (hS : Signed Δ env) (h : Scope Δ env v hasThis Γ G)
    (hG : ∀ x, ¬ Generated x → G' x = G x) : Scope Δ env v hasThis Γ G' := by
  refine h.change hS (fun x _ hx => hG x hx) fun {x t} hx => ?_
  have hvar := h.vars hx
  exact ⟨hvar.1, (hG x fun hgen => hvar.1 (.generated hgen)).trans hvar.2⟩

theorem update (hS : Signed Δ env) (h : Scope Δ env v hasThis Γ G) {x : String} (hx : Generated x)
    (s : Option Srt) : Scope Δ env v hasThis Γ (Function.update G x s) :=
  h.generated hS fun y hy => Function.update_of_ne (by rintro rfl; exact hy hx) _ _

end Scope

/-- Variables of the source get the sorts of their types. -/
theorem Source.sorts_bind {Γ : Typing} {G : Sorts} {bs : List Source.Binder} {x : String} {t : Typ}
    (hx : x ∈ bs.map (·.1)) (ht : Γ.bind bs x = some t) :
    G.bind (sortBinders bs) x = some t.sort := by
  induction bs generalizing Γ G with
  | nil => simp at hx
  | cons b bs ih =>
    simp only [sortBinders, List.map_cons, Typing.bind_cons, Sorts.bind_cons] at ht ih ⊢
    by_cases hmem : x ∈ bs.map (·.1)
    · exact ih hmem ht
    · rw [Typing.bind_of_notMem hmem] at ht
      rw [Sorts.bind_of_notMem (by simpa [sortBinders] using hmem)]
      obtain rfl : x = b.1 := by simpa [hmem] using hx
      simp only [Function.update_self, Option.some.injEq] at ht ⊢
      rw [ht]

/-- Below binders of the source that take no reserved name. -/
theorem Scope.bind {Δ : Vocabulary} {env : Env} {v : View} {hasThis : Bool} {Γ : Typing} {G : Sorts}
    (hS : Signed Δ env) (h : Scope Δ env v hasThis Γ G) {bs : List Source.Binder}
    (hbs : ∀ b ∈ bs, ¬ Reserved env v b.1) :
    Scope Δ env v hasThis (Γ.bind bs) (G.bind (sortBinders bs)) := by
  have hnames : ∀ x, x ∈ bs.map (·.1) → ¬ Reserved env v x := by
    intro x hx
    obtain ⟨b, hb, rfl⟩ := List.mem_map.1 hx
    exact hbs b hb
  refine h.change hS (fun x hx _ => ?_) fun {x t} hx => ?_
  · refine Sorts.bind_of_notMem fun hmem => ?_
    exact hnames x (by simpa [sortBinders] using hmem) hx
  · by_cases hmem : x ∈ bs.map (·.1)
    · exact ⟨hnames x hmem, sorts_bind hmem hx⟩
    · rw [Typing.bind_of_notMem hmem] at hx
      rw [Sorts.bind_of_notMem (by simpa [sortBinders] using hmem)]
      exact h.vars hx

/-! ## Where clauses -/

namespace Heap

variable {Δ : Vocabulary} {G : Sorts} {heap o : IL.Expr}

theorem sort?_isAlloc (hΔ : Δ.Operations) (hG : Ground Δ heap G)
    (ho : o.sort? Δ G = some Prelude.refSort) : (isAlloc heap o).sort? Δ G = some .bool := by
  have hread : (Prelude.read heap o Prelude.alloc).sort? Δ G = some Prelude.boxSort :=
    Expr.sort?_app hΔ.read (.cons hG.heap (.cons ho (.cons hG.alloc .nil)))
  exact Expr.sort?_app (hΔ.unbox .bool) (.cons hread .nil)

theorem sort?_isFresh (hΔ : Δ.Operations) (hG : Ground Δ heap G)
    (ho : o.sort? Δ G = some Prelude.refSort) : (isFresh heap o).sort? Δ G = some .bool := by
  exact Expr.sort?_conj₂ (Expr.sort?_ne ho hG.null) (Expr.sort?_neg (sort?_isAlloc hΔ hG ho))

end Heap

namespace WhereClause

section

variable {α : Type} {G G' : String → α} {d : Nat}

/-- What is assigned to names differs at most at the variables of where clauses from a depth on. -/
def Away (d : Nat) (G G' : String → α) : Prop :=
  ∀ x, (∀ k, d ≤ k → x ≠ boxVar k ∧ x ≠ indexVar k) → G' x = G x

theorem Away.refl (d : Nat) (G : String → α) : Away d G G := fun _ _ => rfl

theorem Away.box (a : α) (h : Away (d + 1) (Function.update G (boxVar d) a) G') :
    Away d G G' := by
  intro x hx
  rw [h x fun k hk => hx k (by omega), Function.update_of_ne (hx d (Nat.le_refl d)).1]

theorem Away.index (a : α) (h : Away (d + 1) (Function.update G (indexVar d) a) G') :
    Away d G G' := by
  intro x hx
  rw [h x fun k hk => hx k (by omega), Function.update_of_ne (hx d (Nat.le_refl d)).2]

theorem Away.boxVar_eq {a : α} (h : Away (d + 1) (Function.update G (boxVar d) a) G') :
    G' (boxVar d) = a := by
  rw [h _ fun k hk => ⟨boxVar_ne_boxVar (by omega), boxVar_ne_indexVar d k⟩,
    Function.update_self]

theorem Away.indexVar_eq {a : α}
    (h : Away (d + 1) (Function.update G (indexVar d) a) G') : G' (indexVar d) = a := by
  rw [h _ fun k hk => ⟨(boxVar_ne_indexVar k d).symm, indexVar_ne_indexVar (by omega)⟩,
    Function.update_self]

theorem Away.generated (h : Away d G G') {x : String} (hx : ¬ Generated x) : G' x = G x := by
  refine h x fun k _ => ⟨?_, ?_⟩
  · rintro rfl
    exact hx (.boxAt k)
  · rintro rfl
    exact hx (.indexAt k)

end

variable {Δ : Vocabulary} {env : Env} {heap w : IL.Expr} {G G' : Sorts} {d : Nat} {t : Typ}

/-- A value has its sort and the heap model is at hand, whatever the variables of inner clauses
are. -/
def Rests (Δ : Vocabulary) (heap : IL.Expr) (d : Nat) (G : Sorts) (w : IL.Expr) (s : Srt) : Prop :=
  ∀ G', Away d G G' → Ground Δ heap G' ∧ w.sort? Δ G' = some s

theorem Rests.box {s r : Srt} (h : Rests Δ heap d G w s) :
    Ground Δ heap (Function.update G (boxVar d) (some r)) ∧
      w.sort? Δ (Function.update G (boxVar d) (some r)) = some s :=
  h _ (Away.box _ (.refl _ _))

theorem Rests.index {s r : Srt} (h : Rests Δ heap d G w s) :
    Ground Δ heap (Function.update G (indexVar d) (some r)) ∧
      w.sort? Δ (Function.update G (indexVar d) (some r)) = some s :=
  h _ (Away.index _ (.refl _ _))

/-- The content of the box that a clause binds. -/
theorem Rests.unboxed {s : Srt} (h : Rests Δ heap d G w s) (hΔ : Δ.Operations) (elem : Typ) :
    Rests Δ heap (d + 1) (Function.update G (boxVar d) (some Prelude.boxSort))
      (Boxing.unbox elem (.var (boxVar d))) elem.sort :=
  fun G' hG' => ⟨(h G' (hG'.box _)).1, Boxing.sort?_unbox hΔ elem hG'.boxVar_eq⟩

theorem sort?_orNull {a : IL.Expr} (hG : Ground Δ heap G)
    (hw : w.sort? Δ G = some Prelude.refSort) (ha : a.sort? Δ G = some .bool) :
    (orNull w a).sort? Δ G = some .bool := by
  exact Expr.sort?_disj₂ (Expr.sort?_eq hw hG.null) ha

theorem sort?_pairwiseExclusive {ts : List IL.Expr} (h : ∀ t ∈ ts, t.sort? Δ G = some .bool) :
    ∀ e ∈ pairwiseExclusive ts, e.sort? Δ G = some .bool := by
  induction ts with
  | nil => simp [pairwiseExclusive]
  | cons t ts ih =>
    obtain ⟨ht, hts⟩ := List.forall_mem_cons.1 h
    intro e he
    rw [pairwiseExclusive, List.mem_append] at he
    rcases he with he | he
    · obtain ⟨u, hu, rfl⟩ := List.mem_map.1 he
      exact Expr.sort?_neg (Expr.sort?_conj₂ ht (hts u hu))
    · exact ih hts e he

/-- The tests of the constructors of a datatype are Boolean. -/
theorem sort?_isCtor (hS : Signed Δ env) {p : Path} {dt : Datatype}
    (hd : env.context.datatype p = .ok dt) {k : Ctor} (hk : k ∈ dt.ctors)
    (hw : w.sort? Δ G = some Prelude.datatypeSort) :
    (IL.Expr.app (Naming.isCtor p k.name) [w]).sort? Δ G = some .bool := by
  have hdecl : Δ.Declares (.func (Naming.isCtor p k.name) [Prelude.datatypeSort] .bool) :=
    hS.covers.ctors p dt hd k hk _ (by simp [Ctor.decls])
  exact Expr.sort?_app hdecl (.cons hw .nil)

theorem sort?_both {a b : Option IL.Expr} (ha : ∀ e ∈ a, e.sort? Δ G = some .bool)
    (hb : ∀ e ∈ b, e.sort? Δ G = some .bool) : ∀ e ∈ both a b, e.sort? Δ G = some .bool := by
  intro e he
  cases a <;> cases b <;>
    simp only [both, Option.mem_def, Option.some.injEq, reduceCtorEq] at he <;>
    subst he <;> refine Expr.sort?_conj ?_ <;> simpa using by tauto

/-- That something holds of all values of a variable. -/
theorem sort?_forEach {x : String} {s : Srt} {g a : IL.Expr} {trigger : IL.Expr}
    (htrigger : (trigger.sort? Δ (Function.update G x (some s))).isSome)
    (hg : g.sort? Δ (Function.update G x (some s)) = some .bool)
    (ha : a.sort? Δ (Function.update G x (some s)) = some .bool) :
    (IL.Expr.all [(x, s)] [[trigger]] (.imp g a)).sort? Δ G = some .bool :=
  Expr.sort?_all (Expr.sort?_imp hg ha) (by simpa using htrigger)

variable (heap) in
/-- The where clause of a value of a resolved type is Boolean. -/
theorem clause_sorted (hS : Signed Δ env) (extended : Bool) (ht : t.Resolved env.context) :
    ∃ o, (clause extended heap d t w).Returns env o ∧
      ∀ G, Rests Δ heap d G w t.sort → ∀ e ∈ o, e.sort? Δ G = some .bool := by
  have hΔ := hS.covers.operations
  fun_induction clause extended heap d t w with
  | case1 | case2 | case3 => exact ⟨none, by simp, by simp⟩
  | case4 d w =>
    refine ⟨_, rfl, fun G hw e he => ?_⟩
    obtain rfl := Option.mem_some.1 he
    exact Expr.sort?_le (by simp) (hw G (.refl d G)).2
  | case5 d p args w =>
    refine ⟨_, rfl, fun G hw e he => ?_⟩
    obtain rfl := Option.mem_some.1 he
    obtain ⟨hG, hw⟩ := hw G (.refl d G)
    have htyped : (IL.Expr.eq (Prelude.dtype w) (.var (Naming.cls p))).sort? Δ G = some .bool :=
      Expr.sort?_eq (Expr.sort?_app hΔ.dtype (.cons hw .nil)) (hG.cls p)
    exact sort?_orNull hG hw (Expr.sort?_conj₂ (Heap.sort?_isAlloc hΔ hG hw) htyped)
  | case6 d elem w =>
    refine ⟨_, rfl, fun G hw e he => ?_⟩
    obtain rfl := Option.mem_some.1 he
    obtain ⟨hG, hw⟩ := hw G (.refl d G)
    have htyped : (IL.Expr.eq (Prelude.dtype w) (.var (Naming.cls Heap.arrayClass))).sort? Δ G =
        some .bool := Expr.sort?_eq (Expr.sort?_app hΔ.dtype (.cons hw .nil)) (hG.cls _)
    exact sort?_orNull hG hw (Expr.sort?_conj₂ (Heap.sort?_isAlloc hΔ hG hw) htyped)
  | case7 d w =>
    refine ⟨_, rfl, fun G hw e he => ?_⟩
    obtain rfl := Option.mem_some.1 he
    obtain ⟨hG, hw⟩ := hw G (.refl d G)
    exact sort?_orNull hG hw (Heap.sort?_isAlloc hΔ hG hw)
  | case8 d p args w =>
    obtain ⟨dt, hd⟩ := ht
    refine ⟨_, by simp only [ofDatatype, ExprM.returns_bind, ExprM.returns_datatype, hd,
      ExprM.returns_pure]; exact ⟨_, ⟨_, rfl, rfl⟩, rfl⟩, fun G hw e he => ?_⟩
    obtain rfl := Option.mem_some.1 he
    obtain ⟨hG, hw⟩ := hw G (.refl d G)
    have htests : ∀ e ∈ dt.ctors.map fun c => IL.Expr.app (Naming.isCtor p c.name) [w],
        e.sort? Δ G = some .bool := by
      intro e he
      obtain ⟨k, hk, rfl⟩ := List.mem_map.1 he
      exact sort?_isCtor hS hd hk hw
    refine Expr.sort?_conj fun e he => ?_
    rcases List.mem_append.1 he with he | he
    · simp only [List.mem_cons, List.not_mem_nil, or_false] at he
      rcases he with rfl | rfl
      · exact Expr.sort?_app hΔ.isAllocDt (.cons hw (.cons hG.heap .nil))
      · exact Expr.sort?_disj htests
    · split at he
      · exact sort?_pairwiseExclusive htests e he
      · cases he
  | case9 d elem w b ih =>
    obtain ⟨o, ho, hsorted⟩ := ih ht
    refine ⟨_, by simp only [ExprM.returns_bind, ExprM.returns_pure]; exact ⟨o, ho, rfl⟩,
      fun G hw => sort?_both (fun e he => ?_) (fun e he => ?_)⟩
    · split at he
      · obtain rfl := Option.mem_some.1 he
        exact Expr.sort?_app hΔ.isGoodSet (.cons (hw G (.refl d G)).2 .nil)
      · cases he
    · obtain ⟨c, hc, rfl⟩ := Option.map_eq_some_iff.1 he
      have hmem : (Prelude.setMem w (.var b)).sort? Δ
          (Function.update G b (some Prelude.boxSort)) = some .bool :=
        Expr.sort?_app hΔ.setMem (.cons hw.box.2 (.cons (Function.update_self ..) .nil))
      exact sort?_forEach (by simp [hmem]) hmem (hsorted _ (hw.unboxed hΔ elem) c hc)
  | case10 d elem w b ih =>
    obtain ⟨o, ho, hsorted⟩ := ih ht
    refine ⟨_, by simp only [ExprM.returns_bind, ExprM.returns_pure]; exact ⟨o, ho, rfl⟩,
      fun G hw => sort?_both (fun e he => ?_) (fun e he => ?_)⟩
    · split at he
      · obtain rfl := Option.mem_some.1 he
        exact Expr.sort?_app hΔ.isGoodMultiset (.cons (hw G (.refl d G)).2 .nil)
      · cases he
    · obtain ⟨c, hc, rfl⟩ := Option.map_eq_some_iff.1 he
      have hcount : (Prelude.multiplicity w (.var b)).sort? Δ
          (Function.update G b (some Prelude.boxSort)) = some .int :=
        Expr.sort?_app hΔ.multiplicity (.cons hw.box.2 (.cons (Function.update_self ..) .nil))
      exact sort?_forEach (by simp [hcount]) (Expr.sort?_lt (by simp) hcount)
        (hsorted _ (hw.unboxed hΔ elem) c hc)
  | case11 d elem w i index ih =>
    obtain ⟨o, ho, hsorted⟩ := ih ht
    refine ⟨_, by simp only [ExprM.returns_bind, ExprM.returns_pure]; exact ⟨o, ho, rfl⟩,
      fun G hw e he => ?_⟩
    obtain ⟨c, hc, rfl⟩ := Option.map_eq_some_iff.1 he
    have hindex : ∀ G', Away (d + 1) (Function.update G i (some .int)) G' →
        index.sort? Δ G' = some Prelude.boxSort := by
      intro G' hG'
      exact Expr.sort?_app hΔ.seqIndex
        (.cons (hw G' (hG'.index _)).2 (.cons hG'.indexVar_eq .nil))
    have hi : (IL.Expr.var i).sort? Δ (Function.update G i (some .int)) = some .int :=
      Function.update_self ..
    have hlength : (Prelude.seqLength w).sort? Δ (Function.update G i (some .int)) = some .int :=
      Expr.sort?_app hΔ.seqLength (.cons hw.index.2 .nil)
    have hrange := Expr.sort?_conj₂ (Expr.sort?_le (Expr.sort?_nat 0) hi)
      (Expr.sort?_lt hi hlength)
    refine sort?_forEach (by simp [hindex _ (.refl _ _)]) hrange (hsorted _ ?_ c hc)
    · intro G' hG'
      exact ⟨(hw G' (hG'.index _)).1, Boxing.sort?_unbox hΔ elem (hindex G' hG')⟩
  | case12 d key value w b ihk ihv =>
    obtain ⟨ok, hok, hkeys⟩ := ihk ht.1
    obtain ⟨ov, hov, hvalues⟩ := ihv ht.2
    refine ⟨_, by simp only [ExprM.returns_bind, ExprM.returns_pure]; exact
      ⟨ok, hok, ov, hov, rfl⟩, fun G hw e he => ?_⟩
    obtain ⟨c, hc, rfl⟩ := Option.map_eq_some_iff.1 he
    have hmapped : Rests Δ heap (d + 1) (Function.update G b (some Prelude.boxSort))
        (Boxing.unbox value (Prelude.mapElements w (.var b))) value.sort := by
      intro G' hG'
      obtain ⟨hG, hwG⟩ := hw G' (hG'.box _)
      exact ⟨hG, Boxing.sort?_unbox hΔ value
        (Expr.sort?_app hΔ.mapElements (.cons hwG (.cons hG'.boxVar_eq .nil)))⟩
    have hdomain : (Prelude.mapDomain w).sort? Δ (Function.update G b (some Prelude.boxSort)) =
        some Prelude.setSort := Expr.sort?_app hΔ.mapDomain (.cons hw.box.2 .nil)
    have hmem : (Prelude.setMem (Prelude.mapDomain w) (.var b)).sort? Δ
        (Function.update G b (some Prelude.boxSort)) = some .bool :=
      Expr.sort?_app hΔ.setMem (.cons hdomain (.cons (Function.update_self ..) .nil))
    exact sort?_forEach (by simp [hmem]) hmem
      (sort?_both (hkeys _ (hw.unboxed hΔ key)) (hvalues _ hmapped) c hc)

end WhereClause

section

variable {Δ : Vocabulary} {env : Env} {v : View} {hasThis : Bool} {Γ : Typing} {G : Sorts}

variable (v hasThis) in
/-- The where clauses of variables in scope are Boolean, one by one. -/
theorem whereClauses_sorted (hS : Signed Δ env) {bs : List Source.Binder}
    (hbs : ∀ b ∈ bs, ¬ Reserved env v b.1 ∧ b.2.Resolved env.context) :
    ∃ es, (whereClauses v.heap bs).Returns env es ∧ ∀ {Γ G}, Scope Δ env v hasThis Γ G →
      (∀ b ∈ bs, G b.1 = some b.2.sort) → ∀ e ∈ es, e.sort? Δ G = some .bool := by
  have hclauses : ∃ os, List.Forall₂ (fun b o => (whereClause b.2 (.var b.1) v.heap).Returns env o)
      bs os ∧ ∀ {Γ G}, Scope Δ env v hasThis Γ G → (∀ b ∈ bs, G b.1 = some b.2.sort) →
        ∀ o ∈ os, ∀ e ∈ o, e.sort? Δ G = some .bool := by
    induction bs with
    | nil => exact ⟨[], .nil, by simp⟩
    | cons b bs ih =>
      obtain ⟨⟨hname, hres⟩, hrest⟩ := List.forall_mem_cons.1 hbs
      obtain ⟨os, hos, hsorted⟩ := ih hrest
      obtain ⟨o, ho, hclause⟩ := WhereClause.clause_sorted v.heap (d := 0)
        (w := .var b.1) hS false hres
      refine ⟨o :: os, .cons ho hos, fun {Γ G} hG hvars => ?_⟩
      obtain ⟨hb, hvars⟩ := List.forall_mem_cons.1 hvars
      refine List.forall_mem_cons.2 ⟨hclause G fun G' hG' => ⟨?_, ?_⟩, hsorted hG hvars⟩
      · exact (hG.generated hS fun x hx => hG'.generated hx).ground
      · exact (hG'.generated fun hgen => hname (.generated hgen)).trans hb
  obtain ⟨os, hos, hsorted⟩ := hclauses
  refine ⟨os.filterMap id, ?_, fun {Γ G} hG hvars e he => ?_⟩
  · simp only [whereClauses, ExprM.returns_bind, ExprM.returns_mapM, ExprM.returns_pure]
    exact ⟨os, hos, rfl⟩
  · obtain ⟨o, ho, heq⟩ := List.mem_filterMap.1 he
    exact hsorted hG hvars o ho e heq

variable (v hasThis) in
/-- The where clauses of variables in scope are Boolean. -/
theorem bindersWhere_sorted (hS : Signed Δ env) {bs : List Source.Binder}
    (hbs : ∀ b ∈ bs, ¬ Reserved env v b.1 ∧ b.2.Resolved env.context) :
    ∃ e, (bindersWhere v.heap bs).Returns env e ∧ ∀ {Γ G}, Scope Δ env v hasThis Γ G →
      (∀ b ∈ bs, G b.1 = some b.2.sort) → e.sort? Δ G = some .bool := by
  obtain ⟨es, hes, hsorted⟩ := whereClauses_sorted v hasThis hS hbs
  exact ⟨.conj es, hes.bind rfl, fun hG hvars => Expr.sort?_conj (hsorted hG hvars)⟩

/-- Distinct variables have the sorts of their types where they are bound. -/
theorem sorts_of_nodup {bs : List Source.Binder} (h : (bs.map (·.1)).Nodup) :
    ∀ b ∈ bs, G.bind (sortBinders bs) b.1 = some b.2.sort := by
  induction bs generalizing G with
  | nil => simp
  | cons b bs ih =>
    obtain ⟨hb, hnodup⟩ := List.nodup_cons.1 h
    simp only [sortBinders, List.map_cons, Sorts.bind_cons] at ih ⊢
    refine List.forall_mem_cons.2 ⟨?_, ih hnodup⟩
    rw [Sorts.bind_of_notMem (by simpa using hb), Function.update_self]

end

end ContractLowering
