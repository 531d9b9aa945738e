import ContractLowering.Proofs.IL.Straight
import ContractLowering.Proofs.Lowering.Conversions
import ContractLowering.Proofs.Lowering.Steps
import ContractLowering.Proofs.Prelude.Heaps

/-!
# Stores one after the other

Code that stores values in evaluated targets leaves what `Stored` says: the variables that are
targets have their values, the locations that targets select hold theirs, and nothing else is
changed. One store does this whatever it is (`store_stored`), and several do it in every order
(`stores_stored`), if no variable is stored twice and stores that select one location agree on what
it is to hold.
-/

namespace ContractLowering

open IL Source

/-! ## What stores select and mention -/

namespace Target

/-- The variable that a target is. -/
def var? : Target → Option String
  | .var x _ => some x
  | .heap .. | .range .. => none

/-- The expressions that a target is made of. -/
def parts : Target → List IL.Expr
  | .var .. => []
  | .heap o f _ => [o, f]
  | .range a lo hi _ => [a, lo, hi]

variable {M : Model}

/-- The locations that a target selects. -/
def Selects (old ρ : M.Valuation) (o f : M.Val) : Target → Prop
  | .var .. => False
  | .heap obj field _ => o = obj.eval old ρ ∧ f = field.eval old ρ
  | .range a lo hi _ => o = a.eval old ρ ∧ M.app "FDim" [f] = M.ofInt 1 ∧
      M.toInt (lo.eval old ρ) ≤ M.toInt (M.app "IndexField.inv" [f]) ∧
      M.toInt (M.app "IndexField.inv" [f]) < M.toInt (hi.eval old ρ)

variable {old ρ ρ' : M.Valuation}

/-- Of the elements of its array a range selects those from the first bound up to the second. -/
theorem selects_index (hM : M.Heaps) {a lo hi : IL.Expr} {t : Typ} {o : M.Val} {i : Int} :
    (Target.range a lo hi t).Selects old ρ o (M.app "IndexField" [M.ofInt i]) ↔
      o = a.eval old ρ ∧ M.toInt (lo.eval old ρ) ≤ i ∧ i < M.toInt (hi.eval old ρ) := by
  have hi : M.carrier .int (M.ofInt i) := (M.carrier_int _).2 ⟨i, rfl⟩
  rw [Selects, hM.index_inv hi, hM.index_dim hi, M.toInt_ofInt]
  simp

/-- What a target selects depends on the values of its parts. -/
theorem selects_congr {t : Target} (h : ∀ e ∈ t.parts, e.eval old ρ = e.eval old ρ') (o f : M.Val) :
    t.Selects old ρ o f ↔ t.Selects old ρ' o f := by
  cases t with
  | var => rfl
  | heap obj field t =>
    rw [Selects, Selects, h obj (by simp [parts]), h field (by simp [parts])]
  | range a lo hi t =>
    rw [Selects, Selects, h a (by simp [parts]), h lo (by simp [parts]), h hi (by simp [parts])]

end Target

namespace Store

/-- The names that a store mentions. -/
def names (s : Store) : List String := IL.Expr.freeList (s.value :: s.target.parts)

/-- The boxed value of a store. -/
def boxed (s : Store) : IL.Expr := Boxing.box s.target.typ s.value

end Store

/-- Variables that stores may write: neither the heap nor the locals that keep heaps. -/
def Writable (x : String) : Prop := x ≠ Prelude.heapName ∧ ∀ n, x ≠ Naming.prevHeap n

/-- A name that is none of some variables, nor one that code which stores values writes or binds. -/
structure Untouched (vars : List String) (x : String) : Prop where
  heap : x ≠ Prelude.heapName
  scratch : ∀ n, x ≠ Naming.prevHeap n
  obj : x ≠ Naming.objVar
  field : x ≠ Naming.fieldVar
  var : x ∉ vars

namespace Store

variable {M : Model} {old ρ ρ' : M.Valuation} {s : Store} {vars : List String}

/-- The value and the parts of a store are the same in states that agree on what it mentions. -/
theorem eval_congr (h : ∀ x ∈ s.names, ρ x = ρ' x) :
    s.value.eval old ρ = s.value.eval old ρ' ∧
      ∀ e ∈ s.target.parts, e.eval old ρ = e.eval old ρ' := by
  have hall : ∀ e ∈ s.value :: s.target.parts, e.eval old ρ = e.eval old ρ' :=
    fun e he => Expr.eval_congr_free fun x hx => h x (Expr.mem_freeList.2 ⟨e, he, hx⟩)
  exact List.forall_mem_cons.1 hall

theorem boxed_congr (h : ∀ x ∈ s.names, ρ x = ρ' x) :
    s.boxed.eval old ρ = s.boxed.eval old ρ' := by
  refine Expr.eval_congr_free fun x hx => h x ?_
  rw [boxed, Boxing.free_box] at hx
  exact Expr.mem_freeList.2 ⟨s.value, List.mem_cons_self, hx⟩

theorem selects_congr (h : ∀ x ∈ s.names, ρ x = ρ' x) (o f : M.Val) :
    s.target.Selects old ρ o f ↔ s.target.Selects old ρ' o f :=
  Target.selects_congr (eval_congr h).2 o f

/-- Where a target is one location, it is one and what it is to hold is a box. -/
def Sorted (old ρ : M.Valuation) (s : Store) : Prop :=
  ∀ o f t, s.target = .heap o f t → M.carrier Prelude.refSort (o.eval old ρ) ∧
    M.carrier Prelude.fieldSort (f.eval old ρ) ∧ M.carrier Prelude.boxSort (s.boxed.eval old ρ)

theorem Sorted.congr (hs : s.Sorted old ρ) (h : ∀ x ∈ s.names, ρ x = ρ' x) : s.Sorted old ρ' := by
  intro o f t ht
  obtain ⟨ho, hf, hb⟩ := hs o f t ht
  have hparts : ∀ e ∈ s.target.parts, e.eval old ρ = e.eval old ρ' := (eval_congr h).2
  rw [ht] at hparts
  rw [← boxed_congr h, ← hparts o (by simp [Target.parts]), ← hparts f (by simp [Target.parts])]
  exact ⟨ho, hf, hb⟩

/-- Two stores are of different variables, and where they select one location they agree on what it
is to hold. -/
structure Compatible (old ρ : M.Valuation) (s t : Store) : Prop where
  var : ∀ x, s.target.var? = some x → t.target.var? ≠ some x
  heap : ∀ {o f}, M.carrier Prelude.refSort o → M.carrier Prelude.fieldSort f →
    s.target.Selects old ρ o f → t.target.Selects old ρ o f →
      s.boxed.eval old ρ = t.boxed.eval old ρ

theorem Compatible.symm {t : Store} (h : Compatible old ρ s t) : Compatible old ρ t s where
  var x ht hs := h.var x hs ht
  heap ho hf ht hs := (h.heap ho hf hs ht).symm

theorem Compatible.congr {t : Store} (h : Compatible old ρ s t) (hs : ∀ x ∈ s.names, ρ x = ρ' x)
    (ht : ∀ x ∈ t.names, ρ x = ρ' x) : Compatible old ρ' s t where
  var := h.var
  heap ho hf hselects hselects' := by
    rw [← boxed_congr hs, ← boxed_congr ht]
    exact h.heap ho hf ((selects_congr hs _ _).2 hselects) ((selects_congr ht _ _).2 hselects')

end Store

/-! ## What is stored -/

/-- A state after stores from another one: variables that are targets and locations that targets
select have the values that were to be stored, and everything else is as it was. The heaps in between
are kept in numbered locals. -/
structure Stored {M : Model} (old ρ : M.Valuation) (l : List Store) (σ : M.Valuation) : Prop where
  var : ∀ s ∈ l, ∀ x, s.target.var? = some x → σ x = s.value.eval old ρ
  kept : ∀ x, x ≠ Prelude.heapName → (∀ n, x ≠ Naming.prevHeap n) →
    (∀ s ∈ l, s.target.var? ≠ some x) → σ x = ρ x
  written : ∀ s ∈ l, ∀ o f, M.carrier Prelude.refSort o → M.carrier Prelude.fieldSort f →
    s.target.Selects old ρ o f →
      M.readAt (σ Prelude.heapName) o f = s.boxed.eval old ρ
  untouched : ∀ o f, M.carrier Prelude.refSort o → M.carrier Prelude.fieldSort f →
    (∀ s ∈ l, ¬ s.target.Selects old ρ o f) →
      M.readAt (σ Prelude.heapName) o f = M.readAt (ρ Prelude.heapName) o f

variable {M : Model} {procs : List Procedure} {old ρ ρ' σ : M.Valuation} {vars : List String}

theorem Stored.nil (old ρ : M.Valuation) : Stored old ρ [] ρ where
  var := by simp
  kept _ _ _ _ := rfl
  written := by simp
  untouched _ _ _ _ _ := rfl

/-- What is stored does not depend on the order. -/
theorem Stored.perm {l l' : List Store} (h : Stored old ρ l σ) (hl : l.Perm l') :
    Stored old ρ l' σ where
  var s hs := h.var s (hl.mem_iff.2 hs)
  kept x hheap hscratch hx := h.kept x hheap hscratch fun s hs => hx s (hl.mem_iff.1 hs)
  written s hs := h.written s (hl.mem_iff.2 hs)
  untouched o f ho hf hselects := h.untouched o f ho hf fun s hs => hselects s (hl.mem_iff.1 hs)

/-- What other stores mention is the same after a store. -/
theorem Stored.agree {l : List Store} (h : Stored old ρ l σ)
    (hvars : ∀ s ∈ l, ∀ x, s.target.var? = some x → x ∈ vars) {x : String}
    (hx : Untouched vars x) : ρ x = σ x :=
  (h.kept x hx.heap hx.scratch fun s hs hvar => hx.var (hvars s hs x hvar)).symm

/-- A store before others that are compatible with it. -/
theorem Stored.cons {s : Store} {l : List Store} (h : Stored old ρ [s] ρ') (h' : Stored old ρ' l σ)
    (hvars : ∀ x, s.target.var? = some x → Writable x)
    (hnames : ∀ t ∈ l, ∀ x ∈ t.names, ρ x = ρ' x) (hcompat : ∀ t ∈ l, s.Compatible old ρ t) :
    Stored old ρ (s :: l) σ where
  var := by
    intro t ht x hx
    rcases List.mem_cons.1 ht with rfl | ht
    · obtain ⟨hheap, hscratch⟩ := hvars x hx
      rw [h'.kept x hheap hscratch fun u hu => (hcompat u hu).var x hx]
      exact h.var t (by simp) x hx
    · rw [h'.var t ht x hx, (Store.eval_congr (hnames t ht)).1]
  kept := by
    intro x hheap hscratch hx
    obtain ⟨hs, hl⟩ := List.forall_mem_cons.1 hx
    rw [h'.kept x hheap hscratch hl, h.kept x hheap hscratch (by simpa using hs)]
  written := by
    intro t ht o f ho hf hselects
    rcases List.mem_cons.1 ht with rfl | ht
    · by_cases hlater : ∃ u ∈ l, u.target.Selects old ρ' o f
      · obtain ⟨u, hu, hselects'⟩ := hlater
        rw [h'.written u hu o f ho hf hselects', ← Store.boxed_congr (hnames u hu)]
        exact ((hcompat u hu).heap ho hf hselects
          ((Store.selects_congr (hnames u hu) o f).2 hselects')).symm
      · rw [h'.untouched o f ho hf fun u hu hselects' => hlater ⟨u, hu, hselects'⟩]
        exact h.written t (by simp) o f ho hf hselects
    · rw [h'.written t ht o f ho hf ((Store.selects_congr (hnames t ht) o f).1 hselects),
        Store.boxed_congr (hnames t ht)]
  untouched := by
    intro o f ho hf hselects
    obtain ⟨hs, hl⟩ := List.forall_mem_cons.1 hselects
    rw [h'.untouched o f ho hf fun u hu => mt (Store.selects_congr (hnames u hu) o f).2 (hl u hu),
      h.untouched o f ho hf (by simpa using hs)]

/-! ## One store -/

/-- That the heap of a state is one. -/
abbrev HasHeap (σ : M.Valuation) : Prop := M.carrier Prelude.heapSort (σ Prelude.heapName)

/-- The condition that a location is an element of a range says that the range selects it. -/
theorem holds_rangeSelects {a lo hi obj field : IL.Expr} (t : Typ) :
    Holds old ρ (Target.rangeSelects a lo hi obj field) ↔
      (Target.range a lo hi t).Selects old ρ (obj.eval old ρ) (field.eval old ρ) := by
  simp only [Target.rangeSelects, holds_conj, List.forall_mem_cons, holds_eq,
    holds_le, holds_lt, Target.Selects, Prelude.fieldDim, Prelude.indexFieldInv,
    Expr.eval_app, Expr.eval_nat, List.map_cons, List.map_nil]
  simp

/-- Only numbered locals are called as the locals that keep heaps. -/
theorem ne_prevHeap {x : String} (hx : '%' ∉ x.toList) (n : Nat) : x ≠ Naming.prevHeap n := by
  rintro rfl
  exact hx (by simp [Naming.prevHeap])

theorem eval_readLocation (heap : IL.Expr) :
    (Prelude.read heap Heap.obj Heap.fld).eval old ρ =
      M.readAt (heap.eval old ρ) (ρ Naming.objVar) (ρ Naming.fieldVar) := by
  simp [Prelude.read, Heap.obj, Heap.fld, Model.readAt]

/-- A fact about all locations of the current heap. -/
theorem holds_location {e : IL.Expr} {ts : List IL.Trigger} :
    Holds old ρ (.all Heap.locationBinders ts
      (.eq (Prelude.read Prelude.heapVar Heap.obj Heap.fld) e)) ↔
    ∀ o f, M.carrier Prelude.refSort o → M.carrier Prelude.fieldSort f →
      M.readAt (ρ Prelude.heapName) o f = e.eval old
        (Function.update (Function.update ρ Naming.objVar o) Naming.fieldVar f) := by
  simp only [holds_all, Heap.locationBinders, Model.assigns_cons, Model.assigns_nil,
    holds_eq]
  have hread (o f : M.Val) : (Prelude.read Prelude.heapVar Heap.obj Heap.fld).eval old
      (Function.update (Function.update ρ Naming.objVar o) Naming.fieldVar f) =
        M.readAt (ρ Prelude.heapName) o f := by
    rw [eval_readLocation, Function.update_self, Function.update_of_ne (by decide),
      Function.update_self, Prelude.heapVar, Expr.eval_var, Function.update_of_ne (by decide),
      Function.update_of_ne (by decide)]
  constructor
  · intro h o f ho hf
    rw [← hread]
    exact h _ ⟨o, ho, f, hf, rfl⟩
  · rintro h _ ⟨o, ho, f, hf, rfl⟩
    rw [hread]
    exact h o f ho hf

section

variable {c : Context} {s₁ s₂ : Progress} {code : List IL.Stmt} {tr : Trace M} {span : Span}
  {t : Typ} {value : IL.Expr}

theorem store_var_stored {x : String} (hx : Writable x)
    (hcode : ((Target.var x t).store value).Emits c s₁ () code s₂)
    (hexec : Exec procs old code ρ tr (.done σ)) : Stored old ρ [⟨span, .var x t, value⟩] σ := by
  obtain ⟨rfl, -⟩ := BodyM.emits_add.1 hcode
  obtain ⟨tr', hrest, rfl⟩ := hexec.of_assign
  obtain ⟨rfl, rfl⟩ := hrest.of_nil
  constructor
  case var =>
    intro s hs y hy
    obtain rfl := List.mem_singleton.1 hs
    cases hy
    exact Function.update_self _ _ _
  case kept =>
    intro y _ _ hy
    exact Function.update_of_ne (fun h => hy _ (List.mem_singleton_self _) (congrArg some h.symm)) _ _
  case written =>
    intro s hs o f _ _ hselects
    obtain rfl := List.mem_singleton.1 hs
    exact hselects.elim
  case untouched =>
    intro o f _ _ _
    rw [Function.update_of_ne hx.1.symm]

theorem store_heap_stored (hM : M.Heaps) {o f : IL.Expr} (hheap : HasHeap ρ)
    (hsorted : (⟨span, .heap o f t, value⟩ : Store).Sorted old ρ)
    (hcode : ((Target.heap o f t).store value).Emits c s₁ () code s₂)
    (hexec : Exec procs old code ρ tr (.done σ)) : Stored old ρ [⟨span, .heap o f t, value⟩] σ := by
  simp only [Target.store, BodyM.updateHeap, BodyM.assumeGoodHeap, BodyM.assign, BodyM.assume,
    BodyM.emits_add_bind, BodyM.emits_add] at hcode
  obtain ⟨_, ⟨rfl, -⟩, rfl⟩ := hcode
  rw [List.singleton_append] at hexec
  obtain ⟨tr', hgood, rfl⟩ := hexec.of_assign
  obtain ⟨tr'', hdone, rfl⟩ := hgood.of_assume
  obtain ⟨rfl, rfl⟩ := hdone.of_nil
  obtain ⟨ho, hf, hb⟩ := hsorted o f t rfl
  have hupdated : (Prelude.update Prelude.heapVar o f (Boxing.box t value)).eval old ρ =
      M.app "update" [ρ Prelude.heapName, o.eval old ρ, f.eval old ρ,
        (Boxing.box t value).eval old ρ] := by
    simp [Prelude.update, Prelude.heapVar]
  rw [hupdated]
  constructor
  case var =>
    intro s hs y hy
    obtain rfl := List.mem_singleton.1 hs
    cases hy
  case kept =>
    intro y hy _ _
    exact Function.update_of_ne hy _ _
  case written =>
    intro s hs o' f' _ _ hselects
    obtain rfl := List.mem_singleton.1 hs
    obtain ⟨rfl, rfl⟩ := hselects
    rw [Function.update_self]
    exact hM.read_update hheap ho hf hb
  case untouched =>
    intro o' f' ho' hf' hselects
    rw [Function.update_self]
    refine hM.read_update_of_ne hheap ho hf hb ho' hf' fun hsame => ?_
    exact hselects _ (List.mem_singleton_self _) ⟨hsame.1.symm, hsame.2.symm⟩

/-- The heap is replaced by an arbitrary one, and what it was is kept in a numbered local. -/
theorem exec_havocHeap {prev : IL.Expr} {rest : List IL.Stmt}
    (hcode : BodyM.havocHeap.Emits c s₁ prev code s₂)
    (hexec : Exec procs old (code ++ rest) ρ tr (.done σ)) :
    ∃ n h tr₁ tr₂, prev = .var (Naming.prevHeap n) ∧ tr = tr₁ ++ tr₂ ∧
      Exec procs old rest (Function.update (Function.update ρ (Naming.prevHeap n)
        (ρ Prelude.heapName)) Prelude.heapName h) tr₂ (.done σ) := by
  simp only [BodyM.havocHeap, BodyM.storeIn, bind_assoc, pure_bind, BodyM.emits_decl_bind,
    BodyM.assign, BodyM.havoc, BodyM.assume, BodyM.emits_add_bind, BodyM.emits_pure] at hcode
  obtain ⟨n, _, -, _, _, -, _, ⟨_, ⟨_, ⟨rfl, rfl, -⟩, rfl⟩, rfl⟩, rfl⟩ := hcode
  simp only [List.cons_append, List.nil_append] at hexec
  obtain ⟨tr₁, hexec₁, rfl⟩ := hexec.of_assign
  obtain ⟨h, tr₂, hexec₂, rfl⟩ := hexec₁.of_havoc
  obtain ⟨tr₃, hexec₃, rfl⟩ := hexec₂.of_assume
  exact ⟨n, h, [_, _, _], tr₃, rfl, rfl, hexec₃⟩

/-- The heap is replaced by one that differs in the range only. -/
theorem store_range_stored {a lo hi : IL.Expr}
    (hnames : ∀ x ∈ (⟨span, .range a lo hi t, value⟩ : Store).names, Untouched vars x)
    (hcode : ((Target.range a lo hi t).store value).Emits c s₁ () code s₂)
    (hexec : Exec procs old code ρ tr (.done σ)) (hproper : tr.Proper) :
    Stored old ρ [⟨span, .range a lo hi t, value⟩] σ := by
  obtain ⟨prev, _, code₁, code₂, hhavoc, hfact, rfl⟩ := BodyM.emits_bind.1 hcode
  obtain ⟨n, h, tr₁, tr₂, rfl, rfl, hrest⟩ := exec_havocHeap hhavoc hexec
  obtain ⟨rfl, -⟩ := BodyM.emits_add.1 hfact
  obtain ⟨tr₃, hdone, rfl⟩ := hrest.of_assume
  obtain ⟨rfl, rfl⟩ := hdone.of_nil
  have hlocations := hproper _ _ _ (List.mem_append_right _ List.mem_cons_self)
  rw [holds_location] at hlocations
  generalize hσ : Function.update (Function.update ρ (Naming.prevHeap n) _) _ h = σ at hlocations ⊢
  have hother {x : String} (hheap : x ≠ Prelude.heapName) (hscratch : x ≠ Naming.prevHeap n) :
      σ x = ρ x := by
    rw [← hσ, Function.update_of_ne hheap, Function.update_of_ne hscratch]
  have hprev : σ (Naming.prevHeap n) = ρ Prelude.heapName := by
    rw [← hσ, Function.update_of_ne (ne_prevHeap (by decide) n).symm,
      Function.update_self]
  -- what the assumption says of a location depends on whether the range selects it before the store
  have hreads (o f : M.Val) (ho : M.carrier Prelude.refSort o) (hf : M.carrier Prelude.fieldSort f) :
      ((Target.range a lo hi t).Selects old ρ o f →
        M.readAt (σ Prelude.heapName) o f = (Boxing.box t value).eval old ρ) ∧
      (¬ (Target.range a lo hi t).Selects old ρ o f →
        M.readAt (σ Prelude.heapName) o f = M.readAt (ρ Prelude.heapName) o f) := by
    have hat := hlocations o f ho hf
    generalize hτ : Function.update (Function.update σ Naming.objVar o) Naming.fieldVar f = τ at hat
    have hsame : ∀ x ∈ (⟨span, .range a lo hi t, value⟩ : Store).names, ρ x = τ x := by
      intro x hx
      have hx := hnames x hx
      rw [← hτ, Function.update_of_ne hx.field, Function.update_of_ne hx.obj,
        hother hx.heap (hx.scratch n)]
    have hselects : Holds old τ (Target.rangeSelects a lo hi Heap.obj Heap.fld) ↔
        (Target.range a lo hi t).Selects old ρ o f := by
      rw [holds_rangeSelects t, Store.selects_congr hsame o f, Heap.obj, Heap.fld, Expr.eval_var,
        Expr.eval_var, ← hτ, Function.update_self, Function.update_of_ne (by decide),
        Function.update_self]
    have hread : (Prelude.read (.var (Naming.prevHeap n)) Heap.obj Heap.fld).eval old τ =
        M.readAt (ρ Prelude.heapName) o f := by
      rw [eval_readLocation, Expr.eval_var, ← hτ,
        Function.update_of_ne (ne_prevHeap (by decide) n).symm,
        Function.update_of_ne (ne_prevHeap (by decide) n).symm, hprev, Function.update_self,
        Function.update_of_ne (by decide), Function.update_self]
    classical
    rw [eval_cond] at hat
    constructor
    · intro hin
      rw [hat, if_pos (hselects.2 hin)]
      exact (Store.boxed_congr hsame).symm
    · intro hout
      rw [hat, if_neg (mt hselects.1 hout), hread]
  constructor
  case var =>
    intro s hs y hy
    obtain rfl := List.mem_singleton.1 hs
    cases hy
  case kept =>
    intro y hheap hscratch _
    exact hother hheap (hscratch n)
  case written =>
    intro s hs o f ho hf hselects
    obtain rfl := List.mem_singleton.1 hs
    exact (hreads o f ho hf).1 hselects
  case untouched =>
    intro o f ho hf hselects
    exact (hreads o f ho hf).2 (hselects _ (List.mem_singleton_self _))

end

/-- A store leaves what it says, whatever its target is. -/
theorem store_stored (hM : M.Heaps) {s : Store} (hnames : ∀ x ∈ s.names, Untouched vars x)
    (hvar : ∀ x, s.target.var? = some x → Writable x) (hsorted : s.Sorted old ρ)
    (hheap : HasHeap ρ) {c : Context} {s₁ s₂ : Progress} {code : List IL.Stmt} {tr : Trace M}
    (hcode : (s.target.store s.value).Emits c s₁ () code s₂)
    (hexec : Exec procs old code ρ tr (.done σ)) (hproper : tr.Proper) : Stored old ρ [s] σ := by
  obtain ⟨span, target, value⟩ := s
  cases target with
  | var x t => exact store_var_stored (hvar x rfl) hcode hexec
  | heap o f t => exact store_heap_stored hM hheap hsorted hcode hexec
  | range a lo hi t => exact store_range_stored hnames hcode hexec hproper

/-! ## Several stores -/

/-- Stores that may be made in any order: they mention nothing that stores write, are sorted, and
are compatible with each other. -/
structure Independent {M : Model} (vars : List String) (old ρ : M.Valuation) (l : List Store) :
    Prop where
  names : ∀ s ∈ l, ∀ x ∈ s.names, Untouched vars x
  vars : ∀ s ∈ l, ∀ x, s.target.var? = some x → x ∈ vars
  sorted : ∀ s ∈ l, s.Sorted old ρ
  compatible : l.Pairwise (Store.Compatible old ρ)

namespace Independent

variable {s : Store} {l l' : List Store}

theorem perm (h : Independent vars old ρ l) (hl : l.Perm l') : Independent vars old ρ l' where
  names s hs := h.names s (hl.mem_iff.2 hs)
  vars s hs := h.vars s (hl.mem_iff.2 hs)
  sorted s hs := h.sorted s (hl.mem_iff.2 hs)
  compatible := (hl.pairwise_iff fun hst => hst.symm).1 h.compatible

/-- The first store changes nothing that the others mention. -/
theorem agree (h : Independent vars old ρ (s :: l)) (hs : Stored old ρ [s] ρ') :
    ∀ t ∈ l, ∀ x ∈ t.names, ρ x = ρ' x := by
  intro t ht x hx
  have hvars : ∀ u ∈ [s], ∀ x, u.target.var? = some x → x ∈ vars :=
    List.forall_mem_singleton.2 (h.vars s List.mem_cons_self)
  exact hs.agree hvars (h.names t (List.mem_cons_of_mem _ ht) x hx)

theorem tail (h : Independent vars old ρ (s :: l)) (hs : Stored old ρ [s] ρ') :
    Independent vars old ρ' l where
  names t ht := h.names t (List.mem_cons_of_mem _ ht)
  vars t ht := h.vars t (List.mem_cons_of_mem _ ht)
  sorted t ht := (h.sorted t (List.mem_cons_of_mem _ ht)).congr (h.agree hs t ht)
  compatible := (List.pairwise_cons.1 h.compatible).2.imp_of_mem fun ht hu htu =>
    htu.congr (h.agree hs _ ht) (h.agree hs _ hu)

end Independent

/-- Independent stores leave what they say, one after the other. -/
theorem stores_stored (hM : M.Heaps) (hvars : ∀ x ∈ vars, Writable x) {l : List Store}
    (hl : Independent vars old ρ l) (hheap : HasHeap ρ) {c : Context} {s₁ s₂ : Progress}
    {code : List IL.Stmt} {tr : Trace M}
    (hcode : (l.forM fun s => s.target.store s.value).Emits c s₁ () code s₂)
    (hexec : Exec procs old code ρ tr (.done σ)) (hproper : tr.Proper)
    (hheaps : tr.Passes HasHeap) : Stored old ρ l σ := by
  induction l generalizing ρ s₁ code tr with
  | nil =>
    obtain ⟨-, rfl, -⟩ := BodyM.emits_pure.1 hcode
    obtain ⟨rfl, -⟩ := hexec.of_nil
    exact .nil old σ
  | cons s l ih =>
    obtain ⟨_, s', code₁, code₂, hfirst, hrest, rfl⟩ := BodyM.emits_bind.1 hcode
    obtain ⟨ρ', tr₁, tr₂, hexec₁, hexec₂, rfl⟩ := hexec.split
    obtain ⟨hproper₁, hproper₂⟩ := Trace.proper_append.1 hproper
    obtain ⟨hheaps₁, hheaps₂⟩ := Trace.passes_append.1 hheaps
    have hvar : ∀ x, s.target.var? = some x → Writable x :=
      fun x hx => hvars x (hl.vars s List.mem_cons_self x hx)
    have hone : Stored old ρ [s] ρ' := store_stored hM (hl.names s List.mem_cons_self) hvar
      (hl.sorted s List.mem_cons_self) hheap hfirst hexec₁ hproper₁
    have hothers : Stored old ρ' l σ :=
      ih (hl.tail hone) (hexec₁.passes hheap hheaps₁) hrest hexec₂ hproper₂ hheaps₂
    exact hone.cons hothers hvar (hl.agree hone) (List.pairwise_cons.1 hl.compatible).1


/-- From a state, stores leave what they say in whatever order they are made. The heaps in between
are heaps. -/
def InAnyOrder {M : Model} (procs : List Procedure) (old ρ : M.Valuation) (l : List Store) : Prop :=
  ∀ ⦃order : List Store⦄, order.Perm l → ∀ ⦃c : Context⦄ ⦃s s' : Progress⦄ ⦃code : List IL.Stmt⦄,
    (order.forM fun st => st.target.store st.value).Emits c s () code s' →
    ∀ ⦃σ : M.Valuation⦄ ⦃tr : Trace M⦄, Exec procs old code ρ tr (.done σ) → tr.Proper →
      tr.Passes HasHeap → Stored old ρ l σ

theorem Independent.inAnyOrder (hM : M.Heaps) (hvars : ∀ x ∈ vars, Writable x) {l : List Store}
    (hl : Independent vars old ρ l) (hheap : HasHeap ρ) : InAnyOrder procs old ρ l :=
  fun _ hperm _ _ _ _ hcode _ _ hexec hproper hheaps =>
    (stores_stored hM hvars (hl.perm hperm.symm) hheap hcode hexec hproper hheaps).perm hperm

end ContractLowering
