import ContractLowering.Lowering.BodyM
import ContractLowering.Proofs.IL.Erasure
import ContractLowering.Proofs.Lowering.Rename
import ContractLowering.Proofs.Lowering.Stable

/-!
# Expressions and chosen triggers

Two runs that lower an expression, of which only the first chooses triggers, ask for the same
declarations and give expressions that are equal once triggers are erased. The relation `Alike` says
so of any two computations, up to what a function forgets of their results; it is closed under the
steps that lowerings are made of, and main statement `lowerExpr_alike` says it of every expression.
-/

namespace ContractLowering

open IL Source

/-- The context with the choice of triggers switched on or off. -/
def Context.hinted (b : Bool) (c : Context) : Context :=
  { c with options := { c.options with autoTriggers := b } }

/-- The environment with the choice of triggers switched on or off. -/
def Env.hinted (b : Bool) (env : Env) : Env := { env with context := env.context.hinted b }

namespace ExprM

variable {α β γ δ : Type} {h : α → β} {k : γ → δ}

/-- Two computations ask for the same and give the same up to what `h` forgets, where the first one
chooses triggers and the second does not. -/
def Alike (h : α → β) (x y : ExprM α) : Prop :=
  ∀ env : Env, (x (env.hinted true)).requests = (y (env.hinted false)).requests ∧
    (x (env.hinted true)).result.map h = (y (env.hinted false)).result.map h

namespace Alike

theorem bind {x y : ExprM α} {f g : α → ExprM γ} (hx : Alike h x y)
    (hf : ∀ a b, h a = h b → Alike k (f a) (g b)) : Alike k (x >>= f) (y >>= g) := by
  intro env
  obtain ⟨hr, hv⟩ := hx env
  rw [bind_requests, bind_requests, bind_result, bind_result, hr]
  cases hxe : (x (env.hinted true)).result with
  | error b =>
    cases hye : (y (env.hinted false)).result with
    | error b' => rw [hxe, hye] at hv; cases hv; exact ⟨rfl, rfl⟩
    | ok a' => rw [hxe, hye] at hv; cases hv
  | ok a =>
    cases hye : (y (env.hinted false)).result with
    | error b' => rw [hxe, hye] at hv; cases hv
    | ok a' =>
      rw [hxe, hye] at hv
      obtain ⟨hr', hv'⟩ := hf a a' (Except.ok.inj hv) env
      exact ⟨congrArg _ hr', hv'⟩

theorem pure {a b : α} (hab : h a = h b) : Alike h (Pure.pure a) (Pure.pure b) :=
  fun _ => ⟨rfl, congrArg Except.ok hab⟩

/-- A computation that does not look at the options. -/
theorem of_eq {x : ExprM α} (hx : ∀ env : Env, x (env.hinted true) = x (env.hinted false)) :
    Alike h x x :=
  fun env => by rw [hx env]; exact ⟨rfl, rfl⟩

/-- A first computation whose result does not depend on triggers. -/
theorem bind_id {x : ExprM α} {f g : α → ExprM γ} (hx : Alike id x x)
    (hf : ∀ a, Alike k (f a) (g a)) : Alike k (x >>= f) (x >>= g) :=
  bind hx fun a b (hab : a = b) => hab ▸ hf a

/-- A computation that reads the environment. -/
theorem bind_env {f g : Env → ExprM γ}
    (hf : ∀ env : Env, Alike k (f (env.hinted true)) (g (env.hinted false))) :
    Alike k (ExprM.env >>= f) (ExprM.env >>= g) := by
  intro env
  rw [bind_requests, bind_requests, bind_result, bind_result]
  exact hf env env

theorem mapM {f g : α → ExprM γ} {l : List α} (hf : ∀ a ∈ l, Alike k (f a) (g a)) :
    Alike (List.map k) (l.mapM f) (l.mapM g) := by
  induction l with
  | nil => exact pure rfl
  | cons a l ih =>
    rw [List.mapM_cons, List.mapM_cons]
    refine bind (hf a (by simp)) fun b b' hb => ?_
    refine bind (ih fun a ha => hf a (by simp [ha])) fun bs bs' hbs => ?_
    exact pure (by simp [hb, hbs])

theorem ofExcept (r : Except Broken α) : Alike h (ExprM.ofExcept r) (ExprM.ofExcept r) :=
  of_eq fun _ => rfl

theorem broken (b : Broken) : Alike h (ExprM.broken b) (ExprM.broken b) := ofExcept _

theorem request (r : Request) : Alike id (ExprM.request r) (ExprM.request r) := of_eq fun _ => rfl

theorem function (p : Path) : Alike id (ExprM.function p) (ExprM.function p) := of_eq fun _ => rfl

theorem datatype (p : Path) : Alike id (ExprM.datatype p) (ExprM.datatype p) := of_eq fun _ => rfl

theorem field (f : FieldId) : Alike id (ExprM.field f) (ExprM.field f) := of_eq fun _ => rfl

theorem isRecursive (p : Path) : Alike id (ExprM.isRecursive p) (ExprM.isRecursive p) :=
  of_eq fun _ => rfl

theorem inSameComponent (p q : Path) :
    Alike id (ExprM.inSameComponent p q) (ExprM.inSameComponent p q) :=
  of_eq fun _ => rfl

theorem isSameModule (p : Path) : Alike id (ExprM.isSameModule p) (ExprM.isSameModule p) :=
  of_eq fun _ => rfl

end Alike

end ExprM

/-! ## Building terms -/

theorem Boxing.ren_convert (f : String → String) (s t : Typ) (e : IL.Expr) :
    (convert s t e).ren f = convert s t (e.ren f) := by
  unfold convert unboxTo boxTo
  split <;> split <;> simp [ren_box, ren_unbox]

section

-- The operations of the prelude are applications, below which renaming goes.
attribute [local simp] Boxing.ren_box Boxing.ren_unbox Boxing.ren_convert
  Boxing.boxRef Boxing.unboxRef Boxing.boxBool Boxing.unboxBool
  Prelude.heapVar Prelude.null Prelude.alloc Prelude.setEmpty Prelude.multisetEmpty
  Prelude.seqEmpty Prelude.mapEmpty Prelude.read Prelude.update Prelude.isGoodHeap
  Prelude.heapSucc Prelude.dtype Prelude.fieldDim Prelude.declType Prelude.indexField
  Prelude.indexFieldInv Prelude.arrayLength Prelude.datatypeCtorId Prelude.dtRank
  Prelude.isAllocDt Prelude.setMem Prelude.setUnionOne Prelude.setUnion
  Prelude.setIntersection Prelude.setDifference Prelude.setSubset Prelude.setEqual
  Prelude.setDisjoint Prelude.setCard Prelude.setFromPredicate Prelude.isGoodSet
  Prelude.multiplicity Prelude.multisetUnionOne Prelude.multisetUnion
  Prelude.multisetIntersection Prelude.multisetDifference Prelude.multisetSubset
  Prelude.multisetEqual Prelude.multisetDisjoint Prelude.multisetCard Prelude.isGoodMultiset
  Prelude.seqLength Prelude.seqIndex Prelude.seqBuild Prelude.seqAppend Prelude.seqUpdate
  Prelude.seqTake Prelude.seqDrop Prelude.seqEqual Prelude.seqSameUntil Prelude.seqContains
  Prelude.seqFromArray Prelude.mapDomain Prelude.mapElements Prelude.mapBuild Prelude.mapCard
  Prelude.mapEqual Prelude.mapGlue
  Heap.obj Heap.fld Heap.readArray Heap.isAlloc Heap.nonNullAlloc Heap.isFresh
  Heap.frameCondition

@[local simp] theorem Heap.erase_readField (heap obj : IL.Expr) (h : FieldHandle) :
    (readField heap obj h).erase = readField heap.erase obj.erase h := by
  unfold readField
  split <;> simp

/-! ## Where clauses -/

open ExprM

variable {v : View}

theorem Heap.fieldHandle_alike (f : Field) :
    Alike id (Heap.fieldHandle f) (Heap.fieldHandle f) :=
  Alike.of_eq fun _ => rfl

theorem Heap.dtypeIs_alike {o o' : IL.Expr} (p : Path) (ho : o.erase = o'.erase) :
    Alike IL.Expr.erase (Heap.dtypeIs o p) (Heap.dtypeIs o' p) :=
  (Alike.of_eq fun _ => rfl : Alike id (Heap.classConst p) (Heap.classConst p)).bind_id
    fun c => .pure (by simp [ho])

theorem Heap.arrayLength_alike {a a' : IL.Expr} (ha : a.erase = a'.erase) :
    Alike IL.Expr.erase (Heap.arrayLength a) (Heap.arrayLength a') :=
  (Alike.request _).bind_id fun _ => .pure (by simp [ha])

theorem WhereClause.erase_orNull (o allocated : IL.Expr) :
    (orNull o allocated).erase = orNull o.erase allocated.erase := by
  simp [orNull]

theorem WhereClause.map_erase_pairwiseExclusive (ts : List IL.Expr) :
    (pairwiseExclusive ts).map IL.Expr.erase = pairwiseExclusive (ts.map IL.Expr.erase) := by
  induction ts with
  | nil => rfl
  | cons t ts ih => simp [pairwiseExclusive, ih]

theorem WhereClause.both_erase {o o' u u' : Option IL.Expr}
    (ho : o.map IL.Expr.erase = o'.map IL.Expr.erase)
    (hu : u.map IL.Expr.erase = u'.map IL.Expr.erase) :
    (both o u).map IL.Expr.erase = (both o' u').map IL.Expr.erase := by
  have (a b : Option IL.Expr) :
      (both a b).map IL.Expr.erase = both (a.map IL.Expr.erase) (b.map IL.Expr.erase) := by
    cases a <;> cases b <;> simp [both]
  rw [this, this, ho, hu]

/-- A clause built on clauses that differ in triggers. -/
theorem map_erase_congr {F G : IL.Expr → IL.Expr} {o o' : Option IL.Expr}
    (ho : o.map IL.Expr.erase = o'.map IL.Expr.erase)
    (h : ∀ a a' : IL.Expr, a.erase = a'.erase → (F a).erase = (G a').erase) :
    (o.map F).map IL.Expr.erase = (o'.map G).map IL.Expr.erase := by
  cases o <;> cases o' <;> simp at ho ⊢
  exact h _ _ ho

theorem map_erase_filterMap {os os' : List (Option IL.Expr)}
    (h : os.map (Option.map IL.Expr.erase) = os'.map (Option.map IL.Expr.erase)) :
    (os.filterMap id).map IL.Expr.erase = (os'.filterMap id).map IL.Expr.erase := by
  have := congrArg (List.filterMap id) h
  simpa [List.filterMap_map, List.map_filterMap, Function.comp_def] using this

theorem WhereClause.ofDatatype_alike (extended : Bool) (p : Path) {a a' heap heap' : IL.Expr}
    (ha : a.erase = a'.erase) (hh : heap.erase = heap'.erase) :
    Alike IL.Expr.erase (ofDatatype extended p a heap) (ofDatatype extended p a' heap') := by
  refine (Alike.datatype p).bind_id fun d => .pure ?_
  cases extended <;> simp [ha, hh, map_erase_pairwiseExclusive, Function.comp_def]

theorem WhereClause.clause_alike (extended : Bool) {heap heap' : IL.Expr}
    (hh : heap.erase = heap'.erase) :
    ∀ (depth : Nat) (t : Typ) {a a' : IL.Expr}, a.erase = a'.erase →
      Alike (Option.map IL.Expr.erase) (clause extended heap depth t a)
        (clause extended heap' depth t a')
  | _, .bool, _, _, _ | _, .int, _, _, _ | _, .param _, _, _, _ => .pure rfl
  | _, .nat, _, _, ha => .pure (by simp [ha])
  | _, .cls _ _, _, _, ha =>
    (Heap.dtypeIs_alike _ ha).bind fun _ _ ht => .pure (by simp [erase_orNull, ha, hh, ht])
  | _, .array _, _, _, ha =>
    (Heap.dtypeIs_alike _ ha).bind fun _ _ ht => .pure (by simp [erase_orNull, ha, hh, ht])
  | _, .object, _, _, ha => .pure (by simp [erase_orNull, ha, hh])
  | _, .datatype p _, _, _, ha =>
    (ofDatatype_alike extended p ha hh).bind fun _ _ he => .pure (by simp [he])
  | depth, .set elem, _, _, ha => by
    refine (clause_alike extended hh (depth + 1) elem rfl).bind fun w w' hw => .pure ?_
    refine both_erase ?_ (map_erase_congr hw fun x y hxy => by simp [hxy, ha])
    cases extended <;> simp [ha]
  | depth, .multiset elem, _, _, ha => by
    refine (clause_alike extended hh (depth + 1) elem rfl).bind fun w w' hw => .pure ?_
    refine both_erase ?_ (map_erase_congr hw fun x y hxy => by simp [hxy, ha])
    cases extended <;> simp [ha]
  | depth, .seq elem, _, _, ha => by
    refine (clause_alike extended hh (depth + 1) elem (by simp [ha])).bind fun w w' hw => .pure ?_
    exact map_erase_congr hw fun x y hxy => by simp [hxy, ha]
  | depth, .map key value, _, _, ha => by
    refine (clause_alike extended hh (depth + 1) key rfl).bind fun k k' hk => ?_
    refine (clause_alike extended hh (depth + 1) value (by simp [ha])).bind fun w w' hw => .pure ?_
    exact map_erase_congr (both_erase hk hw) fun x y hxy => by simp [hxy, ha]

theorem whereClause_alike (t : Typ) {a a' heap heap' : IL.Expr} (ha : a.erase = a'.erase)
    (hh : heap.erase = heap'.erase) :
    Alike (Option.map IL.Expr.erase) (whereClause t a heap) (whereClause t a' heap') :=
  WhereClause.clause_alike false hh 0 t ha

theorem whereClauseExtended_alike (t : Typ) {a a' heap heap' : IL.Expr} (ha : a.erase = a'.erase)
    (hh : heap.erase = heap'.erase) :
    Alike (Option.map IL.Expr.erase) (whereClauseExtended t a heap)
      (whereClauseExtended t a' heap') :=
  WhereClause.clause_alike true hh 0 t ha

theorem whereClauses_alike (heap : IL.Expr) (bs : List Source.Binder) :
    Alike (List.map IL.Expr.erase) (whereClauses heap bs) (whereClauses heap bs) :=
  (Alike.mapM fun _ _ => whereClause_alike _ rfl rfl).bind fun _ _ h =>
    .pure (map_erase_filterMap h)

theorem bindersWhere_alike (heap : IL.Expr) (bs : List Source.Binder) :
    Alike IL.Expr.erase (bindersWhere heap bs) (bindersWhere heap bs) :=
  (whereClauses_alike heap bs).bind fun es es' h => .pure (by simp [h])

/-! ## Operators -/

theorem lowerIndex_alike (v : View) (coll idx result : Typ) {a a' b b' : IL.Expr}
    (ha : a.erase = a'.erase) (hb : b.erase = b'.erase) :
    Alike IL.Expr.erase (lowerIndex v coll idx result a b) (lowerIndex v coll idx result a' b') := by
  unfold lowerIndex
  split
  · exact .pure (by simp [ha, hb])
  · exact .pure (by simp [ha, hb])
  · exact .pure (by simp [ha, hb])
  · exact .pure (by simp [ha, hb])
  · exact .broken _

theorem lowerUpdate_alike (coll value : Typ) {a a' b b' c c' : IL.Expr}
    (ha : a.erase = a'.erase) (hb : b.erase = b'.erase) (hc : c.erase = c'.erase) :
    Alike IL.Expr.erase (lowerUpdate coll value a b c) (lowerUpdate coll value a' b' c') := by
  unfold lowerUpdate
  split
  · exact .pure (by simp [ha, hb, hc])
  · exact .pure (by simp [ha, hb, hc])
  · exact .broken _

theorem erase_typedEq (t : Typ) (a b : IL.Expr) :
    (typedEq t a b).erase = typedEq t a.erase b.erase := by
  unfold typedEq
  split <;> simp

theorem erase_seqStarts (proper : Bool) (a b : IL.Expr) :
    (seqStarts proper a b).erase = seqStarts proper a.erase b.erase := by
  cases proper <;> simp [seqStarts]

theorem collectionBelow_alike (proper : Bool) (t : Typ) {a a' b b' : IL.Expr}
    (ha : a.erase = a'.erase) (hb : b.erase = b'.erase) :
    Alike IL.Expr.erase (collectionBelow proper t a b) (collectionBelow proper t a' b') := by
  unfold collectionBelow
  split
  · exact .pure (by cases proper <;> simp [ha, hb])
  · exact .pure (by cases proper <;> simp [ha, hb])
  · exact .pure (by rw [erase_seqStarts, erase_seqStarts, ha, hb])
  · exact .broken _

theorem lowerCompare_alike (op : IL.BinOp) (proper swapped : Bool) (t : Typ) {a a' b b' : IL.Expr}
    (ha : a.erase = a'.erase) (hb : b.erase = b'.erase) :
    Alike IL.Expr.erase (lowerCompare op proper swapped t a b)
      (lowerCompare op proper swapped t a' b') := by
  unfold lowerCompare
  split
  · split
    · exact collectionBelow_alike proper t hb ha
    · exact collectionBelow_alike proper t ha hb
  · exact .pure (by simp [ha, hb])

theorem lowerArith_alike (op : MultiOp) (t : Typ) {a a' b b' : IL.Expr}
    (ha : a.erase = a'.erase) (hb : b.erase = b'.erase) :
    Alike IL.Expr.erase (lowerArith op t a b) (lowerArith op t a' b') := by
  unfold lowerArith
  split
  case h_8 => exact .broken _
  all_goals exact .pure (by simp [ha, hb])

theorem lowerMem_alike (t : Typ) {a a' b b' : IL.Expr} (ha : a.erase = a'.erase)
    (hb : b.erase = b'.erase) : Alike IL.Expr.erase (lowerMem t a b) (lowerMem t a' b') := by
  unfold lowerMem
  split
  case h_5 => exact .broken _
  all_goals exact .pure (by simp [ha, hb])

theorem lowerBinary_alike (op : Source.BinOp) (t₁ t₂ : Typ) {a a' b b' : IL.Expr}
    (ha : a.erase = a'.erase) (hb : b.erase = b'.erase) :
    Alike IL.Expr.erase (lowerBinary op t₁ t₂ a b) (lowerBinary op t₁ t₂ a' b') := by
  have hbox : (Boxing.box t₁ a).erase = (Boxing.box t₁ a').erase := by simp [ha]
  unfold lowerBinary
  cases op with
  | lt | le | gt | ge => exact lowerCompare_alike _ _ _ t₁ ha hb
  | add | sub | mul => exact lowerArith_alike _ t₁ ha hb
  | mem => exact lowerMem_alike t₂ hb hbox
  | notMem => exact (lowerMem_alike t₂ hb hbox).bind fun e e' he => .pure (by simp [he])
  | disjoint => dsimp only; split <;> exact .pure (by simp [ha, hb])
  | _ => exact .pure (by simp [erase_typedEq, ha, hb])

theorem lowerCard_alike (t : Typ) {x : ExprM IL.Expr} (hx : Alike IL.Expr.erase x x) :
    Alike IL.Expr.erase (do let size ← lowerCard t; return size (← x))
      (do let size ← lowerCard t; return size (← x)) := by
  unfold lowerCard
  split
  case h_5 => exact .broken _
  all_goals
    simp only [pure_bind]
    exact hx.bind fun a a' ha => .pure (by simp [ha])

theorem lowerFresh_erase (v : View) (t : Typ) {a a' : IL.Expr} (ha : a.erase = a'.erase) :
    (lowerFresh v t a).erase = (lowerFresh v t a').erase := by
  unfold lowerFresh
  split <;> simp [ha]

theorem autoTriggers_alike (bound : List String) (a a' : IL.Expr) :
    Alike (fun _ => ()) (autoTriggers bound a) (autoTriggers bound a') :=
  fun _ => ⟨rfl, rfl⟩

theorem allAuto_alike (bs : List IL.Binder) {a a' : IL.Expr} (ha : a.erase = a'.erase) :
    Alike IL.Expr.erase (allAuto bs a) (allAuto bs a') :=
  (autoTriggers_alike _ a a').bind fun _ _ _ => .pure (by simp [ha])

theorem exAuto_alike (bs : List IL.Binder) {a a' : IL.Expr} (ha : a.erase = a'.erase) :
    Alike IL.Expr.erase (exAuto bs a) (exAuto bs a') :=
  (autoTriggers_alike _ a a').bind fun _ _ _ => .pure (by simp [ha])

theorem caseBindings_alike (d : Datatype) (dt : Path) (p : Pattern) {a a' : IL.Expr}
    (ha : a.erase = a'.erase) :
    Alike IL.Expr.eraseBindings (caseBindings d dt p a) (caseBindings d dt p a') :=
  (Alike.ofExcept (h := id) _).bind_id fun c => .pure (by simp [ha, Function.comp_def])

theorem callLayer_alike (v : View) (f : Path) : Alike id (callLayer v f) (callLayer v f) := by
  refine (Alike.isRecursive f).bind_id fun recursive => ?_
  cases recursive with
  | false => exact .pure rfl
  | true =>
    refine .of_eq fun env => ?_
    obtain ⟨c, member, module, handles⟩ := env
    obtain ⟨heap, oldHeap, this, layer, frame⟩ := v
    cases member <;> cases layer <;> rfl

theorem elemTyp_alike (t : Typ) : Alike id (elemTyp t) (elemTyp t) := by
  cases t <;> exact Alike.of_eq fun _ => rfl

theorem mapTyps_alike (t : Typ) (b : Broken) : Alike id (mapTyps t b) (mapTyps t b) := by
  cases t <;> exact Alike.of_eq fun _ => rfl

theorem matchedDatatype_alike (t : Typ) : Alike id (matchedDatatype t) (matchedDatatype t) := by
  cases t <;> exact Alike.of_eq fun _ => rfl

theorem erase_intConst (n : Int) : (intConst n).erase = intConst n := by
  unfold intConst
  split <;> simp

theorem erase_seqSlice {s s' : IL.Expr} {o o' u u' : Option IL.Expr} (hs : s.erase = s'.erase)
    (ho : o.map IL.Expr.erase = o'.map IL.Expr.erase)
    (hu : u.map IL.Expr.erase = u'.map IL.Expr.erase) :
    (seqSlice s o u).erase = (seqSlice s' o' u').erase := by
  cases o <;> cases o' <;> simp at ho <;> cases u <;> cases u' <;> simp at hu <;>
    simp [seqSlice, hs, ho, hu]

/-! ## Expressions -/

/-- The lowering of an expression gives the same whether or not triggers are chosen. -/
def LowersAlike (e : Source.Expr) : Prop :=
  ∀ v : View, Alike IL.Expr.erase (lowerExpr v e) (lowerExpr v e)

theorem lowerExpr?_alike (v : View) {o : Option Source.Expr} (h : ∀ e ∈ o, LowersAlike e) :
    Alike (Option.map IL.Expr.erase) (lowerExpr? v o) (lowerExpr? v o) := by
  cases o with
  | none => exact .pure rfl
  | some e => exact (h e rfl v).bind fun a a' ha => .pure (by simp [ha])

theorem lowerReceiver_alike (v : View) {o : Option Source.Expr} (h : ∀ e ∈ o, LowersAlike e) :
    Alike (List.map IL.Expr.erase) (lowerReceiver v o) (lowerReceiver v o) := by
  cases o with
  | none => exact .pure rfl
  | some e => exact (h e rfl v).bind fun a a' ha => .pure (by simp [ha])

theorem lowerTerms_alike (v : View) {es : List Source.Expr} (h : ∀ e ∈ es, LowersAlike e) :
    Alike (List.map IL.Expr.erase) (lowerTerms v es) (lowerTerms v es) := by
  induction es with
  | nil => exact .pure rfl
  | cons e es ih =>
    refine (h e (by simp) v).bind fun a a' ha => ?_
    exact (ih fun e he => h e (by simp [he])).bind fun as as' has => .pure (by simp [ha, has])

theorem lowerTriggers_alike (v : View) {ts : List (List Source.Expr)}
    (h : ∀ t ∈ ts, ∀ e ∈ t, LowersAlike e) :
    Alike (fun _ => ()) (lowerTriggers v ts) (lowerTriggers v ts) := by
  induction ts with
  | nil => exact .pure rfl
  | cons t ts ih =>
    refine (lowerTerms_alike v (h t (by simp))).bind fun _ _ _ => ?_
    exact (ih fun t ht => h t (by simp [ht])).bind fun _ _ _ => .pure rfl

theorem lowerArgs_alike (v : View) (params : List Source.Binder) {es : List Source.Expr}
    (h : ∀ e ∈ es, LowersAlike e) :
    Alike (List.map IL.Expr.erase) (lowerArgs v params es) (lowerArgs v params es) := by
  induction es generalizing params with
  | nil => exact .pure rfl
  | cons e es ih =>
    cases params with
    | nil => exact .pure rfl
    | cons p ps =>
      refine (h e (by simp) v).bind fun a a' ha => ?_
      exact (ih ps fun e he => h e (by simp [he])).bind fun as as' has => .pure (by simp [ha, has])

theorem lowerElements_alike (v : View) (elem : Typ) {add : IL.Expr → IL.Expr → IL.Expr}
    (hadd : ∀ a b, (add a b).erase = add a.erase b.erase) {es : List Source.Expr}
    (h : ∀ e ∈ es, LowersAlike e) {a a' : IL.Expr} (ha : a.erase = a'.erase) :
    Alike IL.Expr.erase (lowerElements v elem add a es) (lowerElements v elem add a' es) := by
  induction es generalizing a a' with
  | nil => exact .pure ha
  | cons e es ih =>
    refine (h e (by simp) v).bind fun b b' hb => ?_
    exact ih (fun e he => h e (by simp [he])) (by simp [hadd, ha, hb])

theorem lowerEntries_alike (v : View) (key value : Typ)
    {es : List (Source.Expr × Source.Expr)} (h : ∀ e ∈ es, LowersAlike e.1 ∧ LowersAlike e.2)
    {a a' : IL.Expr} (ha : a.erase = a'.erase) :
    Alike IL.Expr.erase (lowerEntries v key value a es) (lowerEntries v key value a' es) := by
  induction es generalizing a a' with
  | nil => exact .pure ha
  | cons e es ih =>
    obtain ⟨hk, he⟩ := h e (by simp)
    refine (hk v).bind fun b b' hb => (he v).bind fun c c' hc => ?_
    exact ih (fun e he => h e (by simp [he])) (by simp [ha, hb, hc])

theorem lowerBindings_alike (v : View) {bs : List (String × Source.Expr)}
    (h : ∀ b ∈ bs, LowersAlike b.2) :
    Alike IL.Expr.eraseBindings (lowerBindings v bs) (lowerBindings v bs) := by
  induction bs with
  | nil => exact .pure rfl
  | cons b bs ih =>
    refine (h b (by simp) v).bind fun a a' ha => ?_
    exact (ih fun b hb => h b (by simp [hb])).bind fun as as' has => .pure (by simp [ha, has])

theorem lowerArms_alike (v : View) (d : Datatype) (dt : Path) {s s' : IL.Expr}
    (hs : s.erase = s'.erase) (result : Typ) {arms : List (Pattern × Source.Expr)}
    (h : ∀ p ∈ arms, LowersAlike p.2) :
    Alike (Option.map IL.Expr.erase) (lowerArms v d dt s result arms)
      (lowerArms v d dt s' result arms) := by
  induction arms with
  | nil => exact .pure rfl
  | cons p arms ih =>
    refine (ih fun p hp => h p (by simp [hp])).bind fun o o' ho => ?_
    refine (caseBindings_alike d dt p.1 hs).bind fun bs bs' hbs => ?_
    refine (h p (by simp) v).bind fun b b' hb => ?_
    cases o <;> cases o' <;> simp at ho
    · exact .pure (by simp [hbs, hb])
    · exact .pure (by simp [hbs, hb, ho, hs])

theorem lowerExpr_alike (e : Source.Expr) : LowersAlike e := by
  induction e using Source.Expr.recData with
  | bool | null | var | this => intro v; exact .pure rfl
  | int i n => intro v; exact .pure rfl
  | field i obj fid ih =>
    intro v
    refine (Alike.field fid).bind_id fun f => (Heap.fieldHandle_alike f).bind_id fun h => ?_
    exact (ih v).bind fun a a' ha => .pure (by simp [ha])
  | index i coll idx ihc ihi =>
    intro v
    exact (ihc v).bind fun a a' ha => (ihi v).bind fun b b' hb => lowerIndex_alike v _ _ _ ha hb
  | slice i e lo hi ih ihlo ihhi =>
    intro v
    refine (ih v).bind fun a a' ha => ?_
    refine (lowerExpr?_alike v ihlo).bind fun l l' hl => ?_
    refine (lowerExpr?_alike v ihhi).bind fun u u' hu => .pure (erase_seqSlice ?_ hl hu)
    split <;> simp [ha]
  | update i a b c iha ihb ihc =>
    intro v
    exact (iha v).bind fun x x' hx => (ihb v).bind fun y y' hy => (ihc v).bind fun z z' hz =>
      lowerUpdate_alike _ _ hx hy hz
  | arrayLength i e ih =>
    intro v
    exact (ih v).bind fun a a' ha => Heap.arrayLength_alike ha
  | display i kind es ih =>
    intro v
    refine (elemTyp_alike i.typ).bind_id fun t => lowerElements_alike v t ?_ ih rfl
    cases kind <;> simp [displayOps]
  | mapDisplay i kvs ih =>
    intro v
    exact (mapTyps_alike i.typ _).bind_id fun t => lowerEntries_alike v t.1 t.2 ih rfl
  | ctor i d c es ih =>
    intro v
    refine (Alike.datatype d).bind_id fun dt => (Alike.ofExcept (h := id) _).bind_id fun k => ?_
    exact (lowerArgs_alike v k.fields ih).bind fun as as' has => .pure (by simp [has])
  | destruct i e d c f ih =>
    intro v
    refine (Alike.datatype d).bind_id fun dt => (Alike.ofExcept (h := id) _).bind_id fun k => ?_
    refine (Alike.ofExcept (h := id) _).bind_id fun fld => ?_
    exact (ih v).bind fun a a' ha => .pure (by simp [ha])
  | isCtor i e d c ih =>
    intro v
    exact (ih v).bind fun a a' ha => .pure (by simp [ha])
  | old i e ih => intro v; exact ih v.old
  | fresh i e ih =>
    intro v
    exact (ih v).bind fun a a' ha => .pure (lowerFresh_erase v e.typ ha)
  | unary i op e ih =>
    intro v
    cases op with
    | not => exact (ih v).bind fun a a' ha => .pure (by simp [ha])
    | neg => exact (ih v).bind fun a a' ha => .pure (by simp [ha])
    | card => exact lowerCard_alike e.typ (ih v)
  | binary i op a b iha ihb =>
    intro v
    exact (iha v).bind fun x x' hx => (ihb v).bind fun y y' hy => lowerBinary_alike op _ _ hx hy
  | quant i q bs r b ts ind ihr ihb iht =>
    intro v
    refine (bindersWhere_alike v.heap bs).bind fun w w' hw => ?_
    refine (lowerExpr?_alike v ihr).bind fun o o' ho => (ihb v).bind fun x x' hx => ?_
    have hrange : (o.getD .tt).erase = (o'.getD .tt).erase := by
      cases o <;> cases o' <;> simp at ho ⊢
      exact ho
    dsimp only
    split
    · exact (autoTriggers_alike _ _ _).bind fun _ _ _ => .pure (by cases q <;> simp [hw, hrange, hx])
    · exact (lowerTriggers_alike v iht).bind fun _ _ _ => .pure (by cases q <;> simp [hw, hrange, hx])
  | setComp i bs r t ihr iht =>
    intro v
    unfold lowerExpr
    refine (bindersWhere_alike v.heap bs).bind fun w w' hw => (ihr v).bind fun x x' hx => ?_
    dsimp only
    split
    · exact .pure (by simp [boxLambda, letUnboxed, hw, hx])
    · cases t with
      | none => exact .broken _
      | some t =>
        refine (elemTyp_alike i.typ).bind_id fun elem => (iht t rfl v).bind fun y y' hy => ?_
        refine Alike.bind (exAuto_alike _ ?_) fun b b' hb => .pure (by simp [boxLambda, hb])
        simp [hw, hx, hy]
  | mapComp i b r t ihr iht =>
    intro v
    refine (mapTyps_alike i.typ _).bind_id fun kt => ?_
    refine (bindersWhere_alike v.heap [b]).bind fun w w' hw => (ihr v).bind fun x x' hx => ?_
    exact (iht v).bind fun y y' hy => .pure (by simp [boxLambda, letUnboxed, hw, hx, hy])
  | letIn i bs b ihbs ihb =>
    intro v
    refine (lowerBindings_alike v ihbs).bind fun as as' has => ?_
    exact (ihb v).bind fun x x' hx => .pure (by simp [has, hx])
  | ite i c a b ihc iha ihb =>
    intro v
    exact (iha v).bind fun x x' hx => (ihb v).bind fun y y' hy => (ihc v).bind fun z z' hz =>
      .pure (by simp [hx, hy, hz])
  | cases i e arms ihe iharms =>
    intro v
    refine (ihe v).bind fun s s' hs => (matchedDatatype_alike e.typ).bind_id fun dt => ?_
    refine (Alike.datatype dt).bind_id fun d => ?_
    refine (lowerArms_alike v d dt hs i.typ iharms).bind fun o o' ho => ?_
    cases o <;> cases o' <;> simp at ho
    · exact .broken _
    · exact .pure ho
  | call i f r es ihr ihes =>
    intro v
    refine (Alike.function f).bind_id fun callee => (callLayer_alike v f).bind_id fun layer => ?_
    dsimp only
    split
    all_goals
      refine Alike.bind (h := List.map IL.Expr.erase) ?_ fun recv recv' hrecv =>
        (lowerArgs_alike v callee.params ihes).bind fun as as' has => .pure (by simp [hrecv, has])
    · exact .pure rfl
    · exact lowerReceiver_alike v ihr

theorem lowerCallArgs_alike (v : View) (f : Path) (receiver : Option Source.Expr)
    (args : List Source.Expr) :
    Alike (List.map IL.Expr.erase) (lowerCallArgs v f receiver args)
      (lowerCallArgs v f receiver args) := by
  refine (Alike.function f).bind_id fun callee => ?_
  dsimp only
  split
  all_goals
    refine Alike.bind (h := List.map IL.Expr.erase) ?_ fun recv recv' hrecv =>
      (lowerArgs_alike v callee.params fun e _ => lowerExpr_alike e).bind fun as as' has =>
        .pure (by simp [hrecv, has])
  · exact .pure rfl
  · exact lowerReceiver_alike v fun e _ => lowerExpr_alike e

theorem erase_frameEntry (t : Typ) {o o' a a' : IL.Expr} (ho : o.erase = o'.erase)
    (ha : a.erase = a'.erase) : (frameEntry o t a).erase = (frameEntry o' t a').erase := by
  unfold frameEntry
  split <;> simp [ho, ha]

theorem frameContains_alike (v : View) (frame : List Source.Expr) {o o' : IL.Expr}
    (ho : o.erase = o'.erase) :
    Alike IL.Expr.erase (frameContains v frame o) (frameContains v frame o') :=
  (Alike.mapM fun e _ => (lowerExpr_alike e v).bind fun _ _ ha =>
    .pure (erase_frameEntry e.typ ho ha)).bind fun _ _ has => .pure (by simp [has])

theorem frameSet_alike (v : View) (frame : List Source.Expr) (since : Option IL.Expr) :
    Alike IL.Expr.erase (frameSet v frame since) (frameSet v frame since) :=
  (frameContains_alike v frame rfl).bind fun _ _ ha =>
    .pure (by cases since <;> simp [boxLambda, ha])

end

end ContractLowering
