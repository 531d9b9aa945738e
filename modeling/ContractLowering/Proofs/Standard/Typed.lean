import ContractLowering.Proofs.Lowering.Scope
import ContractLowering.Proofs.Standard.Model

/-!
# Where clauses in the standard model

`Typed` says by recursion on a type what it is for a value to have this type in a heap. Values of
datatypes are named there: what is allocated of them is given by a predicate, in which `Typed` is
monotone (`Typed.mono`). A where clause says that its value is typed (`isTrue_clause`).
-/

namespace ContractLowering.Standard

open IL Source Prelude

/-! ## Formulas that are built -/

section

variable {I : Interp} {old ρ : String → Val}

theorem isTrue_conj (es : List IL.Expr) :
    IsTrue I old ρ (.conj es) ↔ ∀ e ∈ es, IsTrue I old ρ e := holds_conj es

theorem isTrue_disj (es : List IL.Expr) :
    IsTrue I old ρ (.disj es) ↔ ∃ e ∈ es, IsTrue I old ρ e := holds_disj es

theorem isTrue_imp (a b : IL.Expr) :
    IsTrue I old ρ (.imp a b) ↔ (IsTrue I old ρ a → IsTrue I old ρ b) := holds_imp a b

theorem isTrue_neg (e : IL.Expr) : IsTrue I old ρ e.neg ↔ ¬ IsTrue I old ρ e := holds_neg e

theorem isTrue_all (bs : List IL.Binder) (ts : List Trigger) (e : IL.Expr) :
    IsTrue I old ρ (.all bs ts e) ↔
      ∀ ρ' : String → Val, Model.Assigns (M := model I) bs ρ ρ' → IsTrue I old ρ' e :=
  holds_all bs ts e

theorem isTrue_ex (bs : List IL.Binder) (ts : List Trigger) (e : IL.Expr) :
    IsTrue I old ρ (.ex bs ts e) ↔
      ∃ ρ' : String → Val, Model.Assigns (M := model I) bs ρ ρ' ∧ IsTrue I old ρ' e :=
  holds_ex bs ts e

theorem isTrue_all_one (x : String) (s : Srt) (ts : List Trigger) (e : IL.Expr) :
    IsTrue I old ρ (.all [(x, s)] ts e) ↔
      ∀ v : Val, v.sort = s → IsTrue I old (Function.update ρ x v) e := by
  show IsTrue I old ρ (.quant .all [(x, s)] ts e) ↔ _
  simp only [isTrue_all_cons, isTrue_all_nil]

theorem value_nat (n : ℕ) : value I old ρ (.nat n) = .int n := Expr.eval_nat n

theorem value_app (f : String) (args : List IL.Expr) :
    value I old ρ (.app f args) = (model I).app f (args.map (value I old ρ)) :=
  Expr.eval_app f args

theorem isTrue_op (op : Op) (args : List IL.Expr) :
    IsTrue I old ρ (.app op.name args) ↔ op.eval I (args.map (value I old ρ)) = .bool true := by
  rw [isTrue_iff, value_op]

end

/-! ## Values of types -/

/-- The value of a type that a box holds. -/
noncomputable def unboxed (t : Typ) (n : ℕ) : Val :=
  match t.boxSort? with
  | some s => .unbox s n
  | none => .box n

/-- An object is allocated in a heap, where constants have the values of a valuation. -/
def IsAllocated (ν : String → Val) (h : Store) (v : Val) : Prop :=
  Val.unbox .bool (h.get v.toRef (ν "alloc").toFld) = .bool true

/-- A value has a type in a heap. Constants have the values of a valuation, tests of constructors
are functions, and a predicate says which values of datatypes are allocated. -/
def Typed (c : Context) (func : String → List Val → Val) (allocated : Data → Store → Prop)
    (ν : String → Val) (h : Store) : Typ → Val → Prop
  | .bool, _ | .int, _ | .param _, _ => True
  | .nat, v => 0 ≤ v.toInt
  | .object, v => v = ν "null" ∨ IsAllocated ν h v
  | .cls p _, v => v = ν "null" ∨ IsAllocated ν h v ∧ .cls v.toRef.cls = ν (Naming.cls p)
  | .array _, v =>
    v = ν "null" ∨ IsAllocated ν h v ∧ .cls v.toRef.cls = ν (Naming.cls Heap.arrayClass)
  | .datatype p _, v => allocated v.toData h ∧
    ∃ d k, c.datatype p = .ok d ∧ k ∈ d.ctors ∧ func (Naming.isCtor p k.name) [v] = .bool true
  | .set t, v => ∀ n ∈ v.toSet, Typed c func allocated ν h t (unboxed t n)
  | .multiset t, v => ∀ n ∈ v.toMultiset, Typed c func allocated ν h t (unboxed t n)
  | .seq t, v => ∀ i : ℤ, 0 ≤ i → i < v.toSeq.length →
    Typed c func allocated ν h t (unboxed t (element v.toSeq i))
  | .map k t, v => ∀ n ∈ v.toMap.support, Typed c func allocated ν h k (unboxed k n) ∧
    Typed c func allocated ν h t (unboxed t (v.toMap n - 1))

section

variable {c : Context} {func : String → List Val → Val} {A B : Data → Store → Prop}
  {ν : String → Val} {h : Store}

/-- More values have a type when more values of datatypes are allocated. -/
theorem Typed.mono (hAB : ∀ d, A d h → B d h) {t : Typ} {v : Val}
    (hv : Typed c func A ν h t v) : Typed c func B ν h t v := by
  fun_induction Typed c func A ν h t v with
  | case1 | case2 | case3 | case4 | case5 | case6 | case7 => exact hv
  | case8 => exact ⟨hAB _ hv.1, hv.2⟩
  | case9 t v ih => exact fun n hn => ih n (hv n hn)
  | case10 t v ih => exact fun n hn => ih n (hv n hn)
  | case11 t v ih => exact fun i hi hlt => ih i (hv i hi hlt)
  | case12 k t v ihk iht => exact fun n hn => ⟨ihk n (hv n hn).1, iht n (hv n hn).2⟩

end

/-! ## Where clauses -/

section

variable {I : Interp} {old ρ ν : String → Val} {h : Store} {env : Env} {heap e : IL.Expr}
  {depth : ℕ} {v : Val}

theorem value_unbox {t : Typ} {n : ℕ} (he : Boxing.applied? e = none)
    (hn : value I old ρ e = .box n) : value I old ρ (Boxing.unbox t e) = unboxed t n := by
  unfold Boxing.unbox unboxed
  cases t.boxSort? with
  | none => exact hn
  | some s =>
    simp only [he]
    rw [show s.unboxName = (Op.unbox s).name from rfl, value_op]
    simp [Op.eval, hn, Val.toBox]

theorem isTrue_isAlloc (hheap : value I old ρ heap = .heap h)
    (halloc : ρ "alloc" = ν "alloc") :
    IsTrue I old ρ (Heap.isAlloc heap e) ↔ IsAllocated ν h (value I old ρ e) := by
  rw [isTrue_iff, IsAllocated]
  show value I old ρ (.app (Op.unbox .bool).name [.app Op.read.name [heap, e, .var "alloc"]]) = _ ↔ _
  simp [value_op, Op.eval, hheap, halloc, Val.toStore, Val.toBox]

/-- A value in a heap whatever the variables of inner clauses are. -/
structure Settled (I : Interp) (old ρ : String → Val) (depth : ℕ) (heap e : IL.Expr) (h : Store)
    (v : Val) : Prop where
  heap : ∀ ρ', WhereClause.Away depth ρ ρ' → value I old ρ' heap = .heap h
  value : ∀ ρ', WhereClause.Away depth ρ ρ' → value I old ρ' e = v

namespace Settled

variable (hs : Settled I old ρ depth heap e h v)

include hs

/-- The value below the binder of a box. -/
theorem atBox (a : Val) :
    Standard.value I old (Function.update ρ (WhereClause.boxVar depth) a) e = v :=
  hs.value _ (WhereClause.Away.box a (.refl _ _))

theorem atIndex (a : Val) :
    Standard.value I old (Function.update ρ (WhereClause.indexVar depth) a) e = v :=
  hs.value _ (WhereClause.Away.index a (.refl _ _))

/-- What a box holds that an inner clause binds. -/
theorem unboxVar (t : Typ) (n : ℕ) :
    Settled I old (Function.update ρ (WhereClause.boxVar depth) (.box n)) (depth + 1) heap
      (Boxing.unbox t (.var (WhereClause.boxVar depth))) h (unboxed t n) where
  heap ρ' hρ' := hs.heap ρ' (hρ'.box _)
  value _ hρ' := value_unbox rfl hρ'.boxVar_eq

/-- An element of the sequence whose index an inner clause binds. -/
theorem unboxIndex (t : Typ) (i : ℤ) :
    Settled I old (Function.update ρ (WhereClause.indexVar depth) (.int i)) (depth + 1) heap
      (Boxing.unbox t (seqIndex e (.var (WhereClause.indexVar depth)))) h
      (unboxed t (element v.toSeq i)) where
  heap ρ' hρ' := hs.heap ρ' (hρ'.index _)
  value ρ' hρ' := by
    refine value_unbox rfl ((value_op .seqIndex _).trans ?_)
    simp [Op.eval, hs.value ρ' (hρ'.index _), hρ'.indexVar_eq, Val.toInt]

/-- What the key is mapped to that an inner clause binds. -/
theorem unboxMapped (t : Typ) (n : ℕ) :
    Settled I old (Function.update ρ (WhereClause.boxVar depth) (.box n)) (depth + 1) heap
      (Boxing.unbox t (mapElements e (.var (WhereClause.boxVar depth)))) h
      (unboxed t (v.toMap n - 1)) where
  heap ρ' hρ' := hs.heap ρ' (hρ'.box _)
  value ρ' hρ' := by
    refine value_unbox rfl ((value_op .mapElements _).trans ?_)
    simp [Op.eval, hs.value ρ' (hρ'.box _), hρ'.boxVar_eq, Val.toBox]

end Settled

/-- Constants keep their values below the binders of clauses. -/
theorem away_box (hν : WhereClause.Away 0 ν ρ) (a : Val) :
    WhereClause.Away 0 ν (Function.update ρ (WhereClause.boxVar depth) a) := by
  intro x hx
  rw [Function.update_of_ne (hx depth (Nat.zero_le _)).1, hν x hx]

theorem away_index (hν : WhereClause.Away 0 ν ρ) (a : Val) :
    WhereClause.Away 0 ν (Function.update ρ (WhereClause.indexVar depth) a) := by
  intro x hx
  rw [Function.update_of_ne (hx depth (Nat.zero_le _)).2, hν x hx]

theorem ofName?_of_percent {f : String} (hf : '%' ∈ f.toList) : Op.ofName? f = none := by
  have hnames : ∀ op ∈ Op.all, '%' ∉ op.name.toList := by decide +kernel
  unfold Op.ofName?
  rw [List.find?_eq_none]
  intro op hop heq
  rw [beq_iff_eq] at heq
  exact hnames op hop (heq ▸ hf)

theorem isTrue_isCtor (p : Path) (k : String) :
    IsTrue I old ρ (.app (Naming.isCtor p k) [e]) ↔
      I.func (Naming.isCtor p k) [value I old ρ e] = .bool true := by
  rw [isTrue_iff, value_func (ofName?_of_percent (by simp [Naming.isCtor]))]
  rfl

theorem isTrue_both {a b : Option IL.Expr} :
    (∀ w ∈ WhereClause.both a b, IsTrue I old ρ w) ↔
      (∀ w ∈ a, IsTrue I old ρ w) ∧ ∀ w ∈ b, IsTrue I old ρ w := by
  cases a <;> cases b <;> simp [WhereClause.both, isTrue_conj]

/-- A clause about the values of a variable that satisfy a condition. -/
theorem isTrue_forEach {x : String} {s : Srt} {ts : List Trigger} {g : IL.Expr}
    {o : Option IL.Expr} :
    (∀ w ∈ o.map fun w => IL.Expr.all [(x, s)] ts (.imp g w), IsTrue I old ρ w) ↔
      ∀ v : Val, v.sort = s → IsTrue I old (Function.update ρ x v) g →
        ∀ w ∈ o, IsTrue I old (Function.update ρ x v) w := by
  cases o with
  | none => simp
  | some w => simp [isTrue_all_one, isTrue_imp]

theorem isTrue_orNull (hnull : ρ "null" = ν "null") {a : IL.Expr} :
    IsTrue I old ρ (WhereClause.orNull e a) ↔ value I old ρ e = ν "null" ∨ IsTrue I old ρ a := by
  simp [WhereClause.orNull, isTrue_disj, Prelude.null, hnull]

theorem isTrue_dtype {x : String} (hx : ρ x = ν x) :
    IsTrue I old ρ (.eq (dtype e) (.var x)) ↔ .cls (value I old ρ e).toRef.cls = ν x := by
  rw [isTrue_eq, value_var, hx, show dtype e = .app Op.dtype.name [e] from rfl, value_op]
  rfl

/-! The conditions on the variables of inner clauses. -/

theorem isTrue_setMem {x : String} :
    IsTrue I old ρ (setMem e (.var x)) ↔ (ρ x).toBox ∈ (value I old ρ e).toSet := by
  rw [show setMem e (.var x) = .app Op.setMem.name [e, .var x] from rfl, isTrue_op]
  simp [Op.eval, Val.ofProp_eq_true]

theorem isTrue_occurs {x : String} :
    IsTrue I old ρ (.lt (.nat 0) (multiplicity e (.var x))) ↔
      (ρ x).toBox ∈ (value I old ρ e).toMultiset := by
  rw [show multiplicity e (.var x) = .app Op.multiplicity.name [e, .var x] from rfl, isTrue_lt,
    value_op, value_nat]
  simp [Op.eval, Val.toInt, Multiset.count_pos]

theorem isTrue_inRange {x : String} :
    IsTrue I old ρ (.conj [.le (.nat 0) (.var x), .lt (.var x) (seqLength e)]) ↔
      0 ≤ (ρ x).toInt ∧ (ρ x).toInt < (value I old ρ e).toSeq.length := by
  rw [show seqLength e = .app Op.seqLength.name [e] from rfl, isTrue_conj]
  simp [value_op, value_nat, Op.eval, Val.toInt]

theorem isTrue_hasKey {x : String} :
    IsTrue I old ρ (setMem (mapDomain e) (.var x)) ↔
      (ρ x).toBox ∈ (value I old ρ e).toMap.support := by
  rw [isTrue_setMem, show mapDomain e = .app Op.mapDomain.name [e] from rfl, value_op]
  rfl

/-- A where clause says that its value has its type. -/
theorem isTrue_clause {t : Typ} {o : Option IL.Expr} (hν : WhereClause.Away 0 ν ρ)
    (hs : Settled I old ρ depth heap e h v)
    (ho : (WhereClause.clause false heap depth t e).Returns env o) :
    (∀ w ∈ o, IsTrue I old ρ w) ↔ Typed env.context I.func I.allocated ν h t v := by
  have constant {ρ : String → Val} (hν : WhereClause.Away 0 ν ρ) {x : String}
      (hx : x ∈ preludeConstants) : ρ x = ν x := hν.generated (not_generated_const hx)
  fun_induction WhereClause.clause false heap depth t e generalizing ρ o v with
  | case1 | case2 | case3 =>
    simp only [ExprM.returns_pure] at ho
    simp [ho, Typed]
  | case4 =>
    simp only [ExprM.returns_pure] at ho
    simp [ho, Typed, value_nat, hs.value ρ (.refl _ _), Val.toInt]
  | case5 depth p args e | case6 depth elem e =>
    simp only [ExprM.returns_bind, Heap.returns_dtypeIs, ExprM.returns_pure, exists_eq_left] at ho
    simp [ho, Typed, isTrue_orNull (constant hν (x := "null") (by decide)), isTrue_conj,
      isTrue_isAlloc (hs.heap ρ (.refl _ _)) (constant hν (by decide)),
      isTrue_dtype (hν.generated (not_generated_cls _)), hs.value ρ (.refl _ _)]
  | case7 depth e =>
    simp only [ExprM.returns_pure] at ho
    simp [ho, Typed, isTrue_orNull (constant hν (x := "null") (by decide)),
      isTrue_isAlloc (hs.heap ρ (.refl _ _)) (constant hν (by decide)), hs.value ρ (.refl _ _)]
  | case8 depth p args e =>
    simp only [WhereClause.ofDatatype, ExprM.returns_bind, ExprM.returns_datatype,
      ExprM.returns_pure] at ho
    obtain ⟨_, ⟨d, hd, rfl⟩, rfl⟩ := ho
    have hallocDt : IsTrue I old ρ (isAllocDt e heap) ↔ I.allocated v.toData h := by
      rw [show isAllocDt e heap = .app Op.isAllocDt.name [e, heap] from rfl, isTrue_op]
      simp [Op.eval, Val.ofProp_eq_true, hs.heap ρ (.refl _ _), hs.value ρ (.refl _ _),
        Val.toStore]
    simp [Typed, isTrue_conj, isTrue_disj, hallocDt, isTrue_isCtor, hs.value ρ (.refl _ _), hd]
  | case9 depth elem e b =>
    rename_i ih
    simp only [ExprM.returns_bind, ExprM.returns_pure] at ho
    obtain ⟨o, ho, rfl⟩ := ho
    have hbody (n : ℕ) := ih (away_box hν _) (hs.unboxVar elem n) ho
    simp only [isTrue_both, isTrue_forEach, isTrue_setMem, Typed, b, hs.atBox]
    simpa [Val.toBox] using forall₂_congr fun n _ => by simpa using hbody n
  | case10 depth elem e b =>
    rename_i ih
    simp only [ExprM.returns_bind, ExprM.returns_pure] at ho
    obtain ⟨o, ho, rfl⟩ := ho
    have hbody (n : ℕ) := ih (away_box hν _) (hs.unboxVar elem n) ho
    simp only [isTrue_both, isTrue_forEach, isTrue_occurs, Typed, b, hs.atBox]
    simpa [Val.toBox] using forall₂_congr fun n _ => by simpa using hbody n
  | case11 depth elem e i =>
    rename_i ih
    simp only [ExprM.returns_bind, ExprM.returns_pure] at ho
    obtain ⟨o, ho, rfl⟩ := ho
    have hbody (n : ℤ) := ih (away_index hν _) (hs.unboxIndex elem n) ho
    simp only [isTrue_forEach, isTrue_inRange, Typed, i, hs.atIndex]
    simpa [Val.toInt] using forall₃_congr fun n _ _ => by simpa using hbody n
  | case12 depth key elem e b =>
    rename_i ihk iht
    simp only [ExprM.returns_bind, ExprM.returns_pure] at ho
    obtain ⟨ok, hok, ot, hot, rfl⟩ := ho
    have hkey (n : ℕ) := ihk (away_box hν _) (hs.unboxVar key n) hok
    have hmapped (n : ℕ) := iht (away_box hν _) (hs.unboxMapped elem n) hot
    simp only [isTrue_both, isTrue_forEach, isTrue_hasKey, Typed, b, hs.atBox]
    simpa [Val.toBox] using forall₂_congr fun n _ => by simpa using and_congr (hkey n) (hmapped n)

/-- The where clauses of variables say that these have their types. -/
theorem isTrue_whereClauses {x : String} (hx : ¬ Generated x) (hh : ρ x = .heap h)
    {bs : List Source.Binder} (hbs : ∀ b ∈ bs, ¬ Generated b.1) {ws : List IL.Expr}
    (hws : (whereClauses (.var x) bs).Returns env ws) :
    (∀ w ∈ ws, IsTrue I old ρ w) ↔
      ∀ b ∈ bs, Typed env.context I.func I.allocated ρ h b.2 (ρ b.1) := by
  simp only [whereClauses, whereClause, ExprM.returns_bind, ExprM.returns_mapM,
    ExprM.returns_pure] at hws
  obtain ⟨clauses, hclauses, rfl⟩ := hws
  induction hclauses with
  | nil => simp
  | @cons b o bs clauses ho _ ih =>
    obtain ⟨hb, hbs⟩ := List.forall_mem_cons.1 hbs
    have hs : Settled I old ρ 0 (.var x) (.var b.1) h (ρ b.1) :=
      ⟨fun ρ' hρ' => (hρ'.generated hx).trans hh, fun ρ' hρ' => hρ'.generated hb⟩
    have hhead := isTrue_clause (WhereClause.Away.refl 0 ρ) hs ho
    rw [List.forall_mem_cons, ← ih hbs, ← hhead]
    cases o <;> simp

/-! ### Clauses as Booleans -/

/-- The shapes of where clauses. A conjunction has at least two conjuncts. -/
inductive IsClause : IL.Expr → Prop
  | ff : IsClause .ff
  | le (a b : IL.Expr) : IsClause (.le a b)
  | or (es : List IL.Expr) : IsClause (.multi .or es)
  | and (a b : IL.Expr) (es : List IL.Expr) : IsClause (.multi .and (a :: b :: es))
  | quant (q : IL.Quantifier) (bs : List IL.Binder) (ts : List Trigger) (e : IL.Expr) :
    IsClause (.quant q bs ts e)

theorem isClause_ofDatatype {p : Path} {w : IL.Expr}
    (hw : (WhereClause.ofDatatype false p e heap).Returns env w) : IsClause w := by
  simp only [WhereClause.ofDatatype, ExprM.returns_bind, ExprM.returns_datatype,
    ExprM.returns_pure] at hw
  obtain ⟨d, -, rfl⟩ := hw
  rcases d.ctors with _ | ⟨k, _ | ⟨k', ks⟩⟩
  · exact .ff
  · exact .and _ _ []
  · have htests : IL.Expr.disj ((k :: k' :: ks).map fun c => .app (Naming.isCtor p c.name) [e]) =
        .multi .or ((k :: k' :: ks).map fun c => .app (Naming.isCtor p c.name) [e]) := by
      simp [IL.Expr.disj, IL.Expr.isTrue, IL.Expr.disjOperands, List.flatMap_map,
        ← List.map_eq_flatMap]
    rw [htests]
    exact .and _ _ []

theorem isClause_clause {t : Typ} {o : Option IL.Expr}
    (ho : (WhereClause.clause false heap depth t e).Returns env o) : ∀ w ∈ o, IsClause w := by
  intro w hw
  cases t with
  | bool | int | param =>
    simp only [WhereClause.clause, ExprM.returns_pure] at ho
    simp [ho] at hw
  | nat =>
    simp only [WhereClause.clause, ExprM.returns_pure] at ho
    obtain rfl : w = _ := by simpa [ho] using hw.symm
    exact .le _ _
  | object | cls | array =>
    simp only [WhereClause.clause, ExprM.returns_bind, Heap.returns_dtypeIs, ExprM.returns_pure,
      exists_eq_left] at ho
    obtain rfl : w = _ := by simpa [ho] using hw.symm
    exact .or _
  | datatype p ts =>
    simp only [WhereClause.clause, ExprM.returns_bind, ExprM.returns_pure] at ho
    obtain ⟨a, ha, rfl⟩ := ho
    obtain rfl : a = w := by simpa using hw
    exact isClause_ofDatatype ha
  | set elem | multiset elem =>
    simp only [WhereClause.clause, ExprM.returns_bind, ExprM.returns_pure] at ho
    obtain ⟨inner, -, rfl⟩ := ho
    cases inner with
    | none => simp [WhereClause.both] at hw
    | some a =>
      obtain rfl : w = _ := by simpa [WhereClause.both] using hw.symm
      exact .quant _ _ _ _
  | seq elem =>
    simp only [WhereClause.clause, ExprM.returns_bind, ExprM.returns_pure] at ho
    obtain ⟨inner, -, rfl⟩ := ho
    obtain ⟨a, -, rfl⟩ := Option.map_eq_some_iff.1 hw
    exact .quant _ _ _ _
  | map k v =>
    simp only [WhereClause.clause, ExprM.returns_bind, ExprM.returns_pure] at ho
    obtain ⟨ok, -, ov, -, rfl⟩ := ho
    obtain ⟨a, -, rfl⟩ := Option.map_eq_some_iff.1 hw
    exact .quant _ _ _ _

theorem value_bool (b : Bool) :
    value I old ρ (.bool b) = .ofProp (IsTrue I old ρ (.bool b)) :=
  congrArg Val.ofProp (propext ((model I).truth_ofProp _).symm)

theorem IsClause.value_eq {w : IL.Expr} (h : IsClause w) :
    value I old ρ w = .ofProp (IsTrue I old ρ w) := by
  cases h with
  | ff => exact value_bool false
  | le | or | and => simp
  | quant => exact value_quant _ _ _ _

theorem isClause_whereClauses {bs : List Source.Binder} {ws : List IL.Expr}
    (hws : (whereClauses heap bs).Returns env ws) : ∀ w ∈ ws, IsClause w := by
  simp only [whereClauses, whereClause, ExprM.returns_bind, ExprM.returns_mapM,
    ExprM.returns_pure] at hws
  obtain ⟨clauses, hclauses, rfl⟩ := hws
  induction hclauses with
  | nil => simp
  | @cons b o bs clauses ho _ ih =>
    have hhead := isClause_clause ho
    cases o with
    | none => simpa using ih
    | some w => simpa using ⟨hhead w rfl, by simpa using ih⟩

/-- The conjunction of where clauses is a Boolean. -/
theorem value_conj {ws : List IL.Expr} (h : ∀ w ∈ ws, IsClause w) :
    value I old ρ (.conj ws) = .ofProp (IsTrue I old ρ (.conj ws)) := by
  unfold IL.Expr.conj
  split
  · exact value_bool false
  split
  · exact value_bool true
  · rename_i a ha
    -- a clause that is no conjunction stands alone
    obtain ⟨w, hw, haw⟩ := List.mem_flatMap.1 (ha ▸ List.mem_cons_self : a ∈ ws.flatMap _)
    have hlength : w.conjOperands.length ≤ 1 := by
      have hsub := ((List.singleton_sublist.2 hw).flatMap IL.Expr.conjOperands).length_le
      simpa [ha] using hsub
    have hclause := h w hw
    cases hclause with
    | ff | le | or | quant =>
      obtain rfl := List.mem_singleton.1 haw
      exact (h _ hw).value_eq
    | and => simp [IL.Expr.conjOperands] at hlength
  · simp

/-- A disjunction of Booleans that are no disjunctions is one. -/
theorem value_disj {es : List IL.Expr}
    (h : ∀ e ∈ es, e.disjOperands = [e] ∧ value I old ρ e = .ofProp (IsTrue I old ρ e)) :
    value I old ρ (.disj es) = .ofProp (IsTrue I old ρ (.disj es)) := by
  unfold IL.Expr.disj
  split
  · exact value_bool true
  split
  · exact value_bool false
  · rename_i a ha
    obtain ⟨e, he, hae⟩ := List.mem_flatMap.1 (ha ▸ List.mem_cons_self : a ∈ es.flatMap _)
    obtain rfl : a = e := by simpa [(h e he).1] using hae
    exact (h a he).2
  · simp

end

end ContractLowering.Standard
