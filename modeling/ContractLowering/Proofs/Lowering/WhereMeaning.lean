import ContractLowering.Proofs.Lowering.Conversions
import ContractLowering.Proofs.Lowering.Scope
import ContractLowering.Proofs.Lowering.Total

/-!
# What where clauses say

`Inhabits` says by recursion on a type what it is for a value of a model to have this type in a heap.
A where clause says this of its value (`holds_clause`), whatever variables the clauses inside it
bind: a clause at depth `d` binds `$b%d` or `$i%d` and what is said below refers to variables of
smaller depths only, so that a value is `Pinned` where an inner clause looks at it.

The extended clause says more, and in the same places (`holds_of_extended`). Besides what is free in
the value and the heap, clauses mention the constants of the heap model only (`clause_free`), of
which those for classes are asked to be declared (`classes_requested`).
-/

namespace ContractLowering

open IL Source

namespace WhereClause

/-! ## Values of types -/

section

variable {M : Model}

variable (M) in
/-- The value of a type that a boxed value stands for. -/
def unboxed (t : Typ) (a : M.Val) : M.Val :=
  match t.boxSort? with
  | some s => M.app s.unboxName [a]
  | none => a

/-- A reference is allocated in a heap. -/
def IsAllocated (ν : M.Valuation) (h a : M.Val) : Prop :=
  M.truth (M.app "$Unbox.bool" [M.app "read" [h, a, ν "alloc"]])

/-- A reference is null, or allocated and of a class. -/
def IsObject (ν : M.Valuation) (h : M.Val) (p : Path) (a : M.Val) : Prop :=
  a = ν "null" ∨ IsAllocated ν h a ∧ M.app "dtype" [a] = ν (Naming.cls p)

/-- A value has a type in a heap. Names of constants have the values of a valuation. -/
def Inhabits (c : Context) (ν : M.Valuation) (h : M.Val) : Typ → M.Val → Prop
  | .bool, _ | .int, _ | .param _, _ => True
  | .nat, a => 0 ≤ M.toInt a
  | .object, a => a = ν "null" ∨ IsAllocated ν h a
  | .cls p _, a => IsObject ν h p a
  | .array _, a => IsObject ν h Heap.arrayClass a
  | .datatype p _, a => M.truth (M.app "$IsAllocDt" [a, h]) ∧
    ∃ d, c.datatype p = .ok d ∧ ∃ k ∈ d.ctors, M.truth (M.app (Naming.isCtor p k.name) [a])
  | .set t, a => ∀ b, M.carrier Prelude.boxSort b → M.truth (M.app "Set.mem" [a, b]) →
    Inhabits c ν h t (unboxed M t b)
  | .multiset t, a => ∀ b, M.carrier Prelude.boxSort b →
    0 < M.toInt (M.app "MultiSet.Multiplicity" [a, b]) → Inhabits c ν h t (unboxed M t b)
  | .seq t, a => ∀ i : Int, 0 ≤ i → i < M.toInt (M.app "Seq.Length" [a]) →
    Inhabits c ν h t (unboxed M t (M.app "Seq.Index" [a, M.ofInt i]))
  | .map k t, a => ∀ b, M.carrier Prelude.boxSort b →
    M.truth (M.app "Set.mem" [M.app "Map.Domain" [a], b]) →
    Inhabits c ν h k (unboxed M k b) ∧
      Inhabits c ν h t (unboxed M t (M.app "Map.Elements" [a, b]))

end

/-! ## Parts of clauses -/

section

variable {M : Model} {old ρ ν : M.Valuation} {env : Env} {heap e a b : IL.Expr} {h v : M.Val}
  {depth : Nat} {t : Typ} {x : String}

/-- What is not a box already is unboxed by the function of its type. -/
theorem eval_unbox (he : Boxing.applied? e = none) :
    (Boxing.unbox t e).eval old ρ = unboxed M t (e.eval old ρ) := by
  unfold Boxing.unbox unboxed
  cases t.boxSort? with
  | none => rfl
  | some s => simp [he]

theorem holds_isAlloc (halloc : ρ "alloc" = ν "alloc") :
    Holds old ρ (Heap.isAlloc heap e) ↔ IsAllocated ν (heap.eval old ρ) (e.eval old ρ) := by
  show Holds old ρ (.app "$Unbox.bool" [.app "read" [heap, e, .var "alloc"]]) ↔ _
  simp [Holds, IsAllocated, halloc]

theorem holds_orNull (hnull : ρ "null" = ν "null") :
    Holds old ρ (orNull e a) ↔ e.eval old ρ = ν "null" ∨ Holds old ρ a := by
  simp [orNull, Prelude.null, hnull]

/-- The clause for objects of a class. -/
theorem holds_object {p : Path} (hnull : ρ "null" = ν "null") (halloc : ρ "alloc" = ν "alloc")
    (hcls : ρ (Naming.cls p) = ν (Naming.cls p)) :
    Holds old ρ (orNull e (.conj [Heap.isAlloc heap e,
      .eq (Prelude.dtype e) (.var (Naming.cls p))])) ↔
      IsObject ν (heap.eval old ρ) p (e.eval old ρ) := by
  rw [holds_orNull hnull]
  simp [holds_isAlloc halloc, IsObject, Prelude.dtype, hcls]

theorem holds_both {o o' : Option IL.Expr} :
    (∀ w ∈ both o o', Holds old ρ w) ↔ (∀ w ∈ o, Holds old ρ w) ∧ ∀ w ∈ o', Holds old ρ w := by
  cases o <;> cases o' <;> simp [both]

/-- A clause about the values of a variable that satisfy a condition. -/
theorem holds_forEach {s : Srt} {ts : List Trigger} {g : IL.Expr} {o : Option IL.Expr} :
    (∀ w ∈ o.map fun w => IL.Expr.all [(x, s)] ts (.imp g w), Holds old ρ w) ↔
      ∀ u, M.carrier s u → Holds old (Function.update ρ x u) g →
        ∀ w ∈ o, Holds old (Function.update ρ x u) w := by
  cases o with
  | none => simp
  | some w =>
    simp only [Option.map_some, Option.mem_some_iff, forall_eq', holds_all, Model.assigns_cons,
      Model.assigns_nil, holds_imp]
    constructor
    · exact fun h u hu => h _ ⟨u, hu, rfl⟩
    · rintro h _ ⟨u, hu, rfl⟩
      exact h u hu

/-- Expressions for the heap and for a value have their values whatever the variables of inner
clauses are. -/
structure Pinned (old ρ : M.Valuation) (depth : Nat) (heap e : IL.Expr) (h v : M.Val) : Prop where
  heap : ∀ ρ', Away depth ρ ρ' → heap.eval old ρ' = h
  value : ∀ ρ', Away depth ρ ρ' → e.eval old ρ' = v

namespace Pinned

/-- Expressions that do not mention variables of clauses. -/
theorem of_free (he : ∀ k, boxVar k ∉ e.free ∧ indexVar k ∉ e.free)
    (hheap : ∀ k, boxVar k ∉ heap.free ∧ indexVar k ∉ heap.free) :
    Pinned old ρ 0 heap e (heap.eval old ρ) (e.eval old ρ) where
  heap _ hρ' := IL.Expr.eval_congr_free fun x hx => hρ' x fun k _ =>
    ⟨fun hb => (hheap k).1 (hb ▸ hx), fun hi => (hheap k).2 (hi ▸ hx)⟩
  value _ hρ' := IL.Expr.eval_congr_free fun x hx => hρ' x fun k _ =>
    ⟨fun hb => (he k).1 (hb ▸ hx), fun hi => (he k).2 (hi ▸ hx)⟩

variable (hp : Pinned old ρ depth heap e h v)

include hp

/-- The value below the binder of a box. -/
theorem atBox (u : M.Val) :
    e.eval old (Function.update ρ (boxVar depth) u) = v :=
  hp.value _ (.box u (.refl _ _))

theorem atIndex (u : M.Val) :
    e.eval old (Function.update ρ (indexVar depth) u) = v :=
  hp.value _ (.index u (.refl _ _))

/-- What a box holds that an inner clause binds. -/
theorem unboxVar (t : Typ) (u : M.Val) :
    Pinned old (Function.update ρ (boxVar depth) u) (depth + 1) heap
      (Boxing.unbox t (.var (boxVar depth))) h (unboxed M t u) where
  heap ρ' hρ' := hp.heap ρ' (hρ'.box _)
  value _ hρ' := (eval_unbox rfl).trans (congrArg (unboxed M t) hρ'.boxVar_eq)

/-- An element of the sequence whose index an inner clause binds. -/
theorem unboxIndex (t : Typ) (i : M.Val) :
    Pinned old (Function.update ρ (indexVar depth) i) (depth + 1) heap
      (Boxing.unbox t (Prelude.seqIndex e (.var (indexVar depth)))) h
      (unboxed M t (M.app "Seq.Index" [v, i])) where
  heap ρ' hρ' := hp.heap ρ' (hρ'.index _)
  value ρ' hρ' := by
    refine (eval_unbox rfl).trans (congrArg (unboxed M t) ?_)
    simp [Prelude.seqIndex, hp.value ρ' (hρ'.index _), hρ'.indexVar_eq]

/-- What the key is mapped to that an inner clause binds. -/
theorem unboxMapped (t : Typ) (u : M.Val) :
    Pinned old (Function.update ρ (boxVar depth) u) (depth + 1) heap
      (Boxing.unbox t (Prelude.mapElements e (.var (boxVar depth)))) h
      (unboxed M t (M.app "Map.Elements" [v, u])) where
  heap ρ' hρ' := hp.heap ρ' (hρ'.box _)
  value ρ' hρ' := by
    refine (eval_unbox rfl).trans (congrArg (unboxed M t) ?_)
    simp [Prelude.mapElements, hp.value ρ' (hρ'.box _), hρ'.boxVar_eq]

end Pinned

/-- Constants keep their values below the binders of clauses. -/
theorem away_box (hν : Away 0 ν ρ) (u : M.Val) :
    Away 0 ν (Function.update ρ (boxVar depth) u) := by
  intro x hx
  rw [Function.update_of_ne (hx depth (Nat.zero_le _)).1, hν x hx]

theorem away_index (hν : Away 0 ν ρ) (u : M.Val) :
    Away 0 ν (Function.update ρ (indexVar depth) u) := by
  intro x hx
  rw [Function.update_of_ne (hx depth (Nat.zero_le _)).2, hν x hx]

/-- A where clause says that its value has its type. -/
theorem holds_clause {o : Option IL.Expr} (hν : Away 0 ν ρ) (hp : Pinned old ρ depth heap e h v)
    (ho : (clause false heap depth t e).Returns env o) :
    (∀ w ∈ o, Holds old ρ w) ↔ Inhabits env.context ν h t v := by
  have constant {ρ : M.Valuation} (hν : Away 0 ν ρ) {x : String} (hx : x ∈ preludeConstants) :
      ρ x = ν x := hν.generated (not_generated_const hx)
  have hnull : "null" ∈ preludeConstants := by decide
  have halloc : "alloc" ∈ preludeConstants := by decide
  fun_induction clause false heap depth t e generalizing ρ o v with
  | case1 | case2 | case3 =>
    simp only [ExprM.returns_pure] at ho
    simp [ho, Inhabits]
  | case4 =>
    simp only [ExprM.returns_pure] at ho
    simp [ho, Inhabits, hp.value ρ (.refl _ _)]
  | case5 depth p args e | case6 depth elem e =>
    simp only [ExprM.returns_bind, Heap.returns_dtypeIs, ExprM.returns_pure, exists_eq_left] at ho
    simp [ho, Inhabits, holds_object (constant hν hnull) (constant hν halloc)
      (hν.generated (not_generated_cls _)), hp.heap ρ (.refl _ _), hp.value ρ (.refl _ _)]
  | case7 depth e =>
    simp only [ExprM.returns_pure] at ho
    simp [ho, Inhabits, holds_orNull (constant hν hnull), holds_isAlloc (constant hν halloc),
      hp.heap ρ (.refl _ _), hp.value ρ (.refl _ _)]
  | case8 depth p args e =>
    simp only [ofDatatype, ExprM.returns_bind, ExprM.returns_datatype, ExprM.returns_pure] at ho
    obtain ⟨_, ⟨d, hd, rfl⟩, rfl⟩ := ho
    simp [Inhabits, Prelude.isAllocDt, holds_app, hp.heap ρ (.refl _ _), hp.value ρ (.refl _ _), hd]
  | case9 depth elem e b =>
    rename_i ih
    simp only [ExprM.returns_bind, ExprM.returns_pure] at ho
    obtain ⟨o, ho, rfl⟩ := ho
    have hbody (u : M.Val) := ih (away_box hν _) (hp.unboxVar elem u) ho
    simp only [holds_both, holds_forEach, Inhabits, b, hbody]
    simp [Prelude.setMem, holds_app, hp.atBox]
  | case10 depth elem e b =>
    rename_i ih
    simp only [ExprM.returns_bind, ExprM.returns_pure] at ho
    obtain ⟨o, ho, rfl⟩ := ho
    have hbody (u : M.Val) := ih (away_box hν _) (hp.unboxVar elem u) ho
    simp only [holds_both, holds_forEach, Inhabits, b, hbody]
    simp [Prelude.multiplicity, hp.atBox]
  | case11 depth elem e i =>
    rename_i ih
    simp only [ExprM.returns_bind, ExprM.returns_pure] at ho
    obtain ⟨o, ho, rfl⟩ := ho
    have hbody (u : M.Val) := ih (away_index hν _) (hp.unboxIndex elem u) ho
    simp only [holds_forEach, Inhabits, i, hbody, M.carrier_int]
    simp [Prelude.seqLength, hp.atIndex]
  | case12 depth key elem e b =>
    rename_i ihk iht
    simp only [ExprM.returns_bind, ExprM.returns_pure] at ho
    obtain ⟨ok, hok, ot, hot, rfl⟩ := ho
    have hkey (u : M.Val) := ihk (away_box hν _) (hp.unboxVar key u) hok
    have hmapped (u : M.Val) := iht (away_box hν _) (hp.unboxMapped elem u) hot
    simp only [holds_forEach, holds_both, Inhabits, b, hkey, hmapped]
    simp [Prelude.setMem, Prelude.mapDomain, holds_app, hp.atBox]

/-! ## The extended clause -/

/-- The extended clause says what the plain one says, and more. -/
theorem holds_of_extended {o o' : Option IL.Expr} (ho : (clause false heap depth t e).Returns env o)
    (ho' : (clause true heap depth t e).Returns env o') (h : ∀ w ∈ o', Holds old ρ w) :
    ∀ w ∈ o, Holds old ρ w := by
  fun_induction clause false heap depth t e generalizing ρ o o' with
  | case1 | case2 | case3 | case4 | case5 | case6 | case7 =>
    simp only [clause] at ho'
    rwa [ho.unique ho']
  | case8 depth p args e =>
    simp only [clause, ofDatatype, ExprM.returns_bind, ExprM.returns_datatype,
      ExprM.returns_pure] at ho ho'
    obtain ⟨_, ⟨d, hd, rfl⟩, rfl⟩ := ho
    obtain ⟨_, ⟨d', hd', rfl⟩, rfl⟩ := ho'
    obtain rfl : d = d' := Except.ok.inj (hd.symm.trans hd')
    simp only [Option.mem_some_iff, forall_eq', holds_conj] at h ⊢
    exact fun w hw => h w (List.mem_append_left _ (by simpa using hw))
  | case9 depth elem e b | case10 depth elem e b =>
    rename_i ih
    simp only [clause, ExprM.returns_bind, ExprM.returns_pure] at ho ho'
    obtain ⟨o, ho, rfl⟩ := ho
    obtain ⟨o', ho', rfl⟩ := ho'
    rw [holds_both, holds_forEach] at h ⊢
    exact ⟨by simp, fun u hu hg => ih ho ho' (h.2 u hu hg)⟩
  | case11 depth elem e i =>
    rename_i ih
    simp only [clause, ExprM.returns_bind, ExprM.returns_pure] at ho ho'
    obtain ⟨o, ho, rfl⟩ := ho
    obtain ⟨o', ho', rfl⟩ := ho'
    rw [holds_forEach] at h ⊢
    exact fun u hu hg => ih ho ho' (h u hu hg)
  | case12 depth key elem e b =>
    rename_i ihk iht
    simp only [clause, ExprM.returns_bind, ExprM.returns_pure] at ho ho'
    obtain ⟨ok, hok, ot, hot, rfl⟩ := ho
    obtain ⟨ok', hok', ot', hot', rfl⟩ := ho'
    simp only [holds_forEach, holds_both] at h ⊢
    exact fun u hu hg => ⟨ihk hok hok' (h u hu hg).1, iht hot hot' (h u hu hg).2⟩

/-! ## Free names -/

/-- The classes of the references that values of a type hold, arrays included. -/
def classes : Typ → List Path
  | .cls p _ => [p]
  | .array _ => [Heap.arrayClass]
  | .set t | .multiset t | .seq t => classes t
  | .map k t => classes k ++ classes t
  | _ => []

/-- What a clause may mention besides what its value and the heap mention. -/
def Constant (t : Typ) (x : String) : Prop :=
  x = "null" ∨ x = "alloc" ∨ ∃ p ∈ classes t, x = Naming.cls p

theorem Constant.mono {t u : Typ} (h : Constant t x) (htu : classes t ⊆ classes u) :
    Constant u x :=
  h.imp_right (.imp_right fun ⟨p, hp, hx⟩ => ⟨p, htu hp, hx⟩)

theorem free_of_isAlloc (hx : x ∈ (Heap.isAlloc heap e).free) :
    x ∈ e.free ∨ x ∈ heap.free ∨ x = "alloc" := by
  have hx : x ∈ heap.free ∨ x ∈ e.free ∨ x = "alloc" := by
    simpa [Heap.isAlloc, Boxing.unboxBool, Prelude.read, Prelude.alloc, Expr.free,
      Expr.freeList] using hx
  tauto

theorem free_of_orNull (hx : x ∈ (orNull e a).free) : x ∈ e.free ∨ x = "null" ∨ x ∈ a.free := by
  obtain ⟨w, hw, hxw⟩ := Expr.free_of_disj hx
  obtain rfl | rfl := List.mem_pair.1 hw
  · have hxw : x ∈ e.free ∨ x = "null" := by
      simpa [Expr.eq, Prelude.null, Expr.free] using hxw
    exact hxw.imp_right .inl
  · exact .inr (.inr hxw)

theorem free_of_object {c : String} (hx : x ∈ (orNull e (.conj [Heap.isAlloc heap e,
    .eq (Prelude.dtype e) (.var c)])).free) :
    x ∈ e.free ∨ x ∈ heap.free ∨ x = "null" ∨ x = "alloc" ∨ x = c := by
  obtain hx | hx | hx := free_of_orNull hx
  · exact .inl hx
  · exact .inr (.inr (.inl hx))
  · obtain ⟨w, hw, hxw⟩ := Expr.free_of_conj hx
    obtain rfl | rfl := List.mem_pair.1 hw
    · have := free_of_isAlloc hxw
      tauto
    · have hxw : x ∈ e.free ∨ x = c := by
        simpa [Expr.eq, Prelude.dtype, Expr.free, Expr.freeList] using hxw
      tauto

theorem free_of_pairwiseExclusive {ts : List IL.Expr} {w : IL.Expr}
    (hw : w ∈ pairwiseExclusive ts) (hx : x ∈ w.free) : ∃ t ∈ ts, x ∈ t.free := by
  induction ts with
  | nil => cases hw
  | cons t ts ih =>
    rw [pairwiseExclusive, List.mem_append] at hw
    obtain hw | hw := hw
    · obtain ⟨u, hu, rfl⟩ := List.mem_map.1 hw
      rw [Expr.free_neg] at hx
      obtain ⟨w, hw, hxw⟩ := Expr.free_of_conj hx
      obtain rfl | rfl := List.mem_pair.1 hw
      · exact ⟨w, by simp, hxw⟩
      · exact ⟨w, by simp [hu], hxw⟩
    · obtain ⟨u, hu, hx⟩ := ih hw
      exact ⟨u, List.mem_cons_of_mem _ hu, hx⟩

theorem free_of_datatype {extended : Bool} {p : Path} {w : IL.Expr}
    (hw : (ofDatatype extended p e heap).Returns env w) (hx : x ∈ w.free) :
    x ∈ e.free ∨ x ∈ heap.free := by
  simp only [ofDatatype, ExprM.returns_bind, ExprM.returns_datatype, ExprM.returns_pure] at hw
  obtain ⟨d, -, rfl⟩ := hw
  have htest {c : IL.Expr} (hc : c ∈ d.ctors.map fun c => IL.Expr.app (Naming.isCtor p c.name) [e])
      (hx : x ∈ c.free) : x ∈ e.free := by
    obtain ⟨k, -, rfl⟩ := List.mem_map.1 hc
    simpa [Expr.free, Expr.freeList] using hx
  obtain ⟨c, hc, hx⟩ := Expr.free_of_conj hx
  obtain hc | hc := List.mem_append.1 hc
  · simp only [List.mem_cons, List.not_mem_nil, or_false] at hc
    obtain rfl | rfl := hc
    · simpa [Prelude.isAllocDt, Expr.free, Expr.freeList] using hx
    · obtain ⟨c, hc, hx⟩ := Expr.free_of_disj hx
      exact .inl (htest hc hx)
  · split at hc
    · obtain ⟨c, hc, hx⟩ := free_of_pairwiseExclusive hc hx
      exact .inl (htest hc hx)
    · cases hc

theorem free_of_both {o o' : Option IL.Expr} {w : IL.Expr} (hw : w ∈ both o o')
    (hx : x ∈ w.free) : (∃ a ∈ o, x ∈ a.free) ∨ ∃ a ∈ o', x ∈ a.free := by
  cases o <;> cases o' <;> simp only [both, Option.mem_def, Option.some.injEq, reduceCtorEq] at hw
  all_goals
    subst hw
    obtain ⟨a, ha, hxa⟩ := Expr.free_of_conj hx
    simp at ha
  · exact .inr ⟨a, by simp [ha], hxa⟩
  · exact .inl ⟨a, by simp [ha], hxa⟩
  · obtain rfl | rfl := ha
    · exact .inl ⟨a, rfl, hxa⟩
    · exact .inr ⟨a, rfl, hxa⟩

/-- What is free in a clause about the values of a variable. -/
theorem free_of_forEach {s : Srt} {ts : List Trigger} {g w : IL.Expr} {y : String}
    {o : Option IL.Expr} (hw : w ∈ o.map fun w => IL.Expr.all [(y, s)] ts (.imp g w))
    (hx : x ∈ w.free) : x ≠ y ∧ (x ∈ g.free ∨ ∃ a ∈ o, x ∈ a.free) := by
  obtain ⟨a, ha, rfl⟩ := Option.map_eq_some_iff.1 hw
  obtain ⟨hx, hne⟩ := Expr.free_of_all hx
  exact ⟨by simpa using hne, (Expr.free_of_imp hx).imp_right fun hx => ⟨a, ha, hx⟩⟩

/-- What is free in a clause is free in its value or in the heap, or is a constant. -/
theorem clause_free {extended : Bool} {o : Option IL.Expr}
    (ho : (clause extended heap depth t e).Returns env o) :
    ∀ w ∈ o, ∀ x ∈ w.free, x ∈ e.free ∨ x ∈ heap.free ∨ Constant t x := by
  intro w hw x hx
  fun_induction clause extended heap depth t e generalizing o w with
  | case1 | case2 | case3 =>
    simp only [ExprM.returns_pure] at ho
    simp [ho] at hw
  | case4 =>
    simp only [ExprM.returns_pure] at ho
    obtain rfl : w = _ := by simpa [ho] using hw.symm
    exact .inl (by simpa [Expr.le, Expr.nat, Expr.free] using hx)
  | case5 depth p args e | case6 depth elem e =>
    simp only [ExprM.returns_bind, Heap.returns_dtypeIs, ExprM.returns_pure, exists_eq_left] at ho
    obtain rfl : w = _ := by simpa [ho] using hw.symm
    have := free_of_object hx
    simpa [Constant, classes] using this
  | case7 depth e =>
    simp only [ExprM.returns_pure] at ho
    obtain rfl : w = _ := by simpa [ho] using hw.symm
    obtain hx | hx | hx := free_of_orNull hx
    · exact .inl hx
    · exact .inr (.inr (.inl hx))
    · have := free_of_isAlloc hx
      simp only [Constant]
      tauto
  | case8 depth p args e =>
    simp only [ExprM.returns_bind, ExprM.returns_pure] at ho
    obtain ⟨a, ha, rfl⟩ := ho
    obtain rfl : a = w := by simpa using hw
    exact (free_of_datatype ha hx).imp_right .inl
  | case9 depth elem e b | case10 depth elem e b =>
    rename_i ih
    simp only [ExprM.returns_bind, ExprM.returns_pure] at ho
    obtain ⟨o, ho, rfl⟩ := ho
    obtain ⟨a, ha, hx⟩ | ⟨a, ha, hx⟩ := free_of_both hw hx
    · split at ha
      · obtain rfl := Option.mem_some.1 ha
        exact .inl (by simpa [Prelude.isGoodSet, Prelude.isGoodMultiset, Expr.free,
          Expr.freeList] using hx)
      · cases ha
    · obtain ⟨hne, hx | ⟨c, hc, hx⟩⟩ := free_of_forEach ha hx
      · exact .inl (by simpa [Prelude.setMem, Prelude.multiplicity, Expr.lt, Expr.nat, Expr.free,
          Expr.freeList, hne] using hx)
      · obtain hx | hx := ih ho c hc hx
        · exact absurd (by simpa [Boxing.free_unbox, Expr.free] using hx) hne
        · exact .inr hx
  | case11 depth elem e i =>
    rename_i index ih
    simp only [ExprM.returns_bind, ExprM.returns_pure] at ho
    obtain ⟨o, ho, rfl⟩ := ho
    obtain ⟨hne, hx | ⟨c, hc, hx⟩⟩ := free_of_forEach hw hx
    · obtain ⟨a, ha, hxa⟩ := Expr.free_of_conj hx
      obtain rfl | rfl := List.mem_pair.1 ha
      · exact absurd (by simpa [Expr.le, Expr.nat, Expr.free] using hxa) hne
      · exact .inl (by simpa [Prelude.seqLength, Expr.lt, Expr.free, Expr.freeList, hne] using hxa)
    · obtain hx | hx := ih ho c hc hx
      · exact .inl (by simpa [Boxing.free_unbox, index, Prelude.seqIndex, Expr.free, Expr.freeList,
          hne] using hx)
      · exact .inr hx
  | case12 depth key elem e b =>
    rename_i ihk iht
    simp only [ExprM.returns_bind, ExprM.returns_pure] at ho
    obtain ⟨ok, hok, ot, hot, rfl⟩ := ho
    obtain ⟨hne, hx | ⟨c, hc, hx⟩⟩ := free_of_forEach hw hx
    · exact .inl (by simpa [Prelude.setMem, Prelude.mapDomain, Expr.free, Expr.freeList,
        hne] using hx)
    · obtain ⟨a, ha, hx⟩ | ⟨a, ha, hx⟩ := free_of_both hc hx
      · obtain hx | hx | hx := ihk hok a ha hx
        · exact absurd (by simpa [Boxing.free_unbox, Expr.free] using hx) hne
        · exact .inr (.inl hx)
        · exact .inr (.inr (hx.mono (List.subset_append_left ..)))
      · obtain hx | hx | hx := iht hot a ha hx
        · exact .inl (by simpa [Boxing.free_unbox, Prelude.mapElements, Expr.free, Expr.freeList,
            hne] using hx)
        · exact .inr (.inl hx)
        · exact .inr (.inr (hx.mono (List.subset_append_right ..)))

/-! ## Requests -/

theorem mem_requests_bind {α β : Type} {x : ExprM α} {f : α → ExprM β} {r : Request} {a : α}
    (ha : x.Returns env a) : r ∈ ((x >>= f) env).requests ↔
      r ∈ (x env).requests ∨ r ∈ (f a env).requests := by
  rw [ExprM.bind_requests, show (x env).result = .ok a from ha, List.mem_append]

/-- The constants of the classes that a clause mentions are asked to be declared. -/
theorem classes_requested {extended : Bool} {o : Option IL.Expr}
    (ho : (clause extended heap depth t e).Returns env o) :
    ∀ p ∈ classes t, Request.cls p ∈ ((clause extended heap depth t e) env).requests := by
  intro p hp
  fun_induction clause extended heap depth t e generalizing o with
  | case1 | case2 | case3 | case4 | case7 | case8 => simp [classes] at hp
  | case5 | case6 =>
    rw [mem_requests_bind (Heap.returns_dtypeIs.2 rfl)]
    obtain rfl : p = _ := by simpa [classes] using hp
    exact .inl (List.mem_singleton_self _)
  | case9 | case10 | case11 =>
    rename_i ih
    simp only [ExprM.returns_bind, ExprM.returns_pure] at ho
    obtain ⟨o, ho, rfl⟩ := ho
    rw [mem_requests_bind ho]
    exact .inl (ih ho hp)
  | case12 =>
    rename_i ihk iht
    simp only [ExprM.returns_bind, ExprM.returns_pure] at ho
    obtain ⟨ok, hok, ot, hot, rfl⟩ := ho
    rw [mem_requests_bind hok, mem_requests_bind hot]
    exact (List.mem_append.1 hp).imp (ihk hok) fun hp => .inl (iht hot hp)

/-- Where a clause is returned, the datatypes of elements are declared. -/
theorem resolved_of_clause {extended : Bool} {o : Option IL.Expr}
    (ho : (clause extended heap depth t e).Returns env o) : t.Resolved env.context := by
  fun_induction clause extended heap depth t e generalizing o with
  | case1 | case2 | case3 | case4 | case5 | case6 | case7 => trivial
  | case8 =>
    simp only [ofDatatype, ExprM.returns_bind, ExprM.returns_datatype] at ho
    obtain ⟨_, ⟨d, hd, -⟩, -⟩ := ho
    exact ⟨d, hd⟩
  | case9 | case10 | case11 =>
    rename_i ih
    simp only [ExprM.returns_bind] at ho
    obtain ⟨o, ho, -⟩ := ho
    exact ih ho
  | case12 =>
    rename_i ihk iht
    simp only [ExprM.returns_bind] at ho
    obtain ⟨ok, hok, ot, hot, -⟩ := ho
    exact ⟨ihk hok, iht hot⟩

end

/-- The names of the heap model that the prelude declares or that requests ask to declare. -/
inductive Global (rs : List Request) : String → Prop
  | null : Global rs "null"
  | alloc : Global rs "alloc"
  | cls {p : Path} (hp : Request.cls p ∈ rs) : Global rs (Naming.cls p)

end WhereClause

open WhereClause

/-- A where clause is returned where the datatypes of a type are declared. Of expressions that do
not mention its variables, it says in every model that the one has the type in the other, and the
extended clause implies it. Neither mentions anything but what these mention and globals. -/
theorem whereClause_meaning (env : Env) (t : Typ) {e heap : IL.Expr}
    (he : ∀ k, boxVar k ∉ e.free ∧ indexVar k ∉ e.free)
    (hheap : ∀ k, boxVar k ∉ heap.free ∧ indexVar k ∉ heap.free) :
    ((whereClause t e heap).Total env ↔ t.Resolved env.context) ∧
    ((whereClauseExtended t e heap).Total env ↔ t.Resolved env.context) ∧
    (∀ o, (whereClause t e heap).Returns env o → ∀ (M : Model) (old ρ : M.Valuation),
      (∀ w ∈ o, Holds old ρ w) ↔
        Inhabits env.context ρ (heap.eval old ρ) t (e.eval old ρ)) ∧
    (∀ o o', (whereClause t e heap).Returns env o → (whereClauseExtended t e heap).Returns env o' →
      ∀ (M : Model) (old ρ : M.Valuation), (∀ w ∈ o', Holds old ρ w) → ∀ w ∈ o, Holds old ρ w) ∧
    ∀ x ∈ [whereClause t e heap, whereClauseExtended t e heap], ∀ o, x.Returns env o →
      ∀ w ∈ o, ∀ y ∈ w.free, y ∈ e.free ∨ y ∈ heap.free ∨ Global (x env).requests y := by
  have htotal (extended : Bool) :
      (clause extended heap 0 t e).Total env ↔ t.Resolved env.context :=
    ⟨fun ⟨_, ho⟩ => resolved_of_clause ho, clause_total extended heap 0⟩
  refine ⟨htotal false, htotal true, fun o ho M old ρ => ?_, fun o o' ho ho' M old ρ h => ?_, ?_⟩
  · exact holds_clause (.refl 0 ρ) (.of_free he hheap) ho
  · exact holds_of_extended ho ho' h
  · have hclause {extended : Bool} {o : Option IL.Expr}
        (ho : (clause extended heap 0 t e).Returns env o) {w : IL.Expr} (hw : w ∈ o) {y : String}
        (hy : y ∈ w.free) : y ∈ e.free ∨ y ∈ heap.free ∨
          Global ((clause extended heap 0 t e) env).requests y := by
      obtain hy | hy | rfl | rfl | ⟨p, hp, rfl⟩ := clause_free ho w hw y hy
      · exact .inl hy
      · exact .inr (.inl hy)
      · exact .inr (.inr .null)
      · exact .inr (.inr .alloc)
      · exact .inr (.inr (.cls (classes_requested ho p hp)))
    intro x hx o ho w hw y hy
    obtain rfl | rfl := List.mem_pair.1 hx
    · exact hclause ho hw hy
    · exact hclause ho hw hy

/-- The clause of a set of sequences of natural numbers says that no number in it is negative. It
binds a box, and an index below it. -/
theorem whereClause_meaning_nested :
    ∃ o, (whereClause (.set (.seq .nat)) (.var "s") (.var "$Heap")).Returns { context := {} } o ∧
      ∀ (M : Model) (old ρ : M.Valuation), (∀ w ∈ o, Holds old ρ w) ↔
        ∀ b, M.carrier Prelude.boxSort b → M.truth (M.app "Set.mem" [ρ "s", b]) →
          ∀ i : Int, 0 ≤ i → i < M.toInt (M.app "Seq.Length" [M.app "$Unbox.seq" [b]]) →
            0 ≤ M.toInt (M.app "$Unbox.int"
              [M.app "Seq.Index" [M.app "$Unbox.seq" [b], M.ofInt i]]) := by
  have hs (k : Nat) : boxVar k ∉ (IL.Expr.var "s").free ∧ indexVar k ∉ (IL.Expr.var "s").free := by
    simp [IL.Expr.free, boxVar, indexVar, Naming.boxVar, Naming.indexVar, String.ext_iff]
  have hheap (k : Nat) :
      boxVar k ∉ (IL.Expr.var "$Heap").free ∧ indexVar k ∉ (IL.Expr.var "$Heap").free := by
    simp [IL.Expr.free, boxVar, indexVar, Naming.boxVar, Naming.indexVar, String.ext_iff]
  obtain ⟨htotal, -, hmeaning, -⟩ :=
    whereClause_meaning { context := {} } (.set (.seq .nat)) hs hheap
  obtain ⟨o, ho⟩ := htotal.2 trivial
  exact ⟨o, ho, fun M old ρ => hmeaning o ho M old ρ⟩

end ContractLowering
