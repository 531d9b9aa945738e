import ContractLowering.Proofs.Lowering.AlikeGoals
import ContractLowering.Proofs.Lowering.Steps

/-!
# Statements and chosen triggers

The statements of a body are the same up to triggers whether or not triggers are chosen. Values that
are stored in locals are read back as variables, so they do not differ at all.
-/

namespace ContractLowering

open IL Source

attribute [local simp] Boxing.ren_box Boxing.ren_unbox Boxing.ren_convert Boxing.boxRef
  Boxing.boxBool Boxing.unboxBool Prelude.heapVar Prelude.null Prelude.alloc Prelude.read
  Prelude.update Prelude.isGoodHeap Prelude.heapSucc Prelude.fieldDim Prelude.indexField
  Prelude.indexFieldInv Prelude.arrayLength Prelude.setMem Prelude.seqBuild Heap.obj Heap.fld
  Heap.readArray Heap.isAlloc Heap.nonNullAlloc Heap.frameCondition inRange inFrame

namespace BodyM

theorem assume_alike {e e' : IL.Expr} (he : e.erase = e'.erase) :
    Alike id (assume e) (assume e') :=
  .add (by simp [he])

theorem assert_alike (msg : Message) {e e' : IL.Expr} (he : e.erase = e'.erase) :
    Alike id (assert msg e) (assert msg e') :=
  .add (by simp [he])

theorem havoc_alike (x : String) : Alike id (havoc x) (havoc x) := .add rfl

theorem assign_alike (x : String) {e e' : IL.Expr} (he : e.erase = e'.erase) :
    Alike id (assign x e) (assign x e') :=
  .add (by simp [he])

theorem assume?_alike {o o' : Option IL.Expr} (ho : o.map IL.Expr.erase = o'.map IL.Expr.erase) :
    Alike id (assume? o) (assume? o') := by
  cases o <;> cases o' <;> simp at ho
  · exact .pure rfl
  · exact assume_alike ho

theorem declareLocal_alike (x : String) (s : Srt) :
    Alike id (ofDecl (DeclM.declareLocal x s)) (ofDecl (DeclM.declareLocal x s)) :=
  .ofDecl (.declareLocal x s)

theorem storeIn_alike (x : String) (s : Srt) {e e' : IL.Expr} (he : e.erase = e'.erase) :
    Alike id (storeIn x s e) (storeIn x s e') :=
  (declareLocal_alike x s).bind_id fun _ => (assign_alike x he).bind_id fun _ => .pure rfl

theorem temp_alike (s : Srt) {e e' : IL.Expr} (he : e.erase = e'.erase) :
    Alike id (temp s e) (temp s e') :=
  (Alike.ofDecl .freshId).bind_id fun _ => storeIn_alike _ s he

theorem define_alike (v : View) (e : Source.Expr) : Alike id (define v e) (define v e) :=
  (Alike.ofExpr (definedness_alike v rfl e)).bind fun _ _ hss => .add hss

theorem value_alike (v : View) (e : Source.Expr) :
    Alike IL.Expr.erase (value v e) (value v e) :=
  (define_alike v e).bind_id fun _ => .ofExpr (lowerExpr_alike e v)

theorem defineAndAssume_alike (v : View) {limits limits' : Limits}
    (hl : limits.erase = limits'.erase) (e : Source.Expr) :
    Alike id (defineAndAssume v limits e) (defineAndAssume v limits' e) := by
  refine (Alike.ofExpr (definedness_alike v hl e)).bind fun ss ss' hss => ?_
  refine (Alike.add hss).bind_id fun _ => ?_
  split
  · exact (Alike.ofExpr (lowerExpr_alike e v)).bind fun _ _ ha => assume_alike ha
  · exact .pure rfl

theorem assertNonNull_alike (obj : Source.Expr) {o o' : IL.Expr} (ho : o.erase = o'.erase) :
    Alike id (assertNonNull obj o) (assertNonNull obj o') := by
  unfold assertNonNull
  split
  · exact .pure rfl
  · exact assert_alike _ (by simp [ho])

theorem assertNat_alike (e : Source.Expr) (target : Typ) {x x' : IL.Expr}
    (hx : x.erase = x'.erase) : Alike id (assertNat e target x) (assertNat e target x') := by
  unfold assertNat
  split
  · exact assert_alike _ (by simp [hx])
  · exact .pure rfl

theorem updateHeap_alike (o f : IL.Expr) {b b' : IL.Expr} (hb : b.erase = b'.erase) :
    Alike id (updateHeap o f b) (updateHeap o f b') :=
  (assign_alike _ (by simp [hb])).bind_id fun _ => assume_alike rfl

theorem havocHeap_alike : Alike id havocHeap havocHeap :=
  (Alike.ofDecl .freshId).bind_id fun _ => (storeIn_alike _ _ rfl).bind_id fun _ =>
    (havoc_alike _).bind_id fun _ => (assume_alike rfl).bind_id fun _ => .pure rfl

theorem snapshot_alike (name : Nat → String) {vs vs' : List MeasureValue}
    (hvs : vs.map MeasureValue.erase = vs'.map MeasureValue.erase) :
    Alike id (snapshot name vs) (snapshot name vs') := by
  have hzip : vs.zipIdx.map (Prod.map MeasureValue.erase id) =
      vs'.zipIdx.map (Prod.map MeasureValue.erase id) := by
    rw [← List.zipIdx_map, ← List.zipIdx_map, hvs]
  rw [← List.map_id_fun]
  refine Alike.mapM hzip fun p p' hp => ?_
  obtain ⟨⟨t, e, inc⟩, i⟩ := p
  obtain ⟨⟨t', e', inc'⟩, i'⟩ := p'
  simp only [Prod.map_apply, MeasureValue.erase, Prod.mk.injEq, MeasureValue.mk.injEq, id_eq] at hp
  obtain ⟨⟨rfl, he, rfl⟩, rfl⟩ := hp
  exact (storeIn_alike _ _ he).bind_id fun _ => .pure rfl

/-- A computation for every element of a list. -/
theorem Alike.forM_id {α : Type} {f g : α → BodyM Unit} {l : List α}
    (hf : ∀ a, Alike id (f a) (g a)) : Alike id (l.forM f) (l.forM g) :=
  Alike.forM (p := id) rfl fun a _ (hab : a = _) => hab ▸ hf a

theorem Alike.mapM_id {α γ δ : Type} {k : γ → δ} {f g : α → BodyM γ} {l : List α}
    (hf : ∀ a, Alike k (f a) (g a)) : Alike (List.map k) (l.mapM f) (l.mapM g) :=
  Alike.mapM (p := id) rfl fun a _ (hab : a = _) => hab ▸ hf a

/-- Elements whose results do not depend on triggers at all. -/
theorem Alike.mapM_same {α γ : Type} {f g : α → BodyM γ} {l : List α}
    (hf : ∀ a, Alike id (f a) (g a)) : Alike id (l.mapM f) (l.mapM g) :=
  List.map_id_fun ▸ Alike.mapM_id hf

theorem Alike.forM_option {α : Type} {f g : α → BodyM Unit} {o : Option α}
    (hf : ∀ a, Alike id (f a) (g a)) : Alike id (o.forM f) (o.forM g) := by
  cases o with
  | none => exact .pure rfl
  | some a => exact hf a

/-- A computation that reads the context. -/
theorem Alike.bind_context {γ δ : Type} {k : γ → δ} {f g : Context → BodyM γ}
    (hf : ∀ c : Context, Alike k (f (c.hinted true)) (g (c.hinted false))) :
    Alike k (BodyM.ofDecl DeclM.context >>= f) (BodyM.ofDecl DeclM.context >>= g) := by
  intro c s s' hs
  exact Alike.bind_id (Alike.pure (a := ()) rfl) (fun _ => hf c) c hs

/-- A computation that reads the declaration that is being lowered. -/
theorem Alike.bind_state {γ δ : Type} {k : γ → δ} {f g : Progress → BodyM γ}
    (hf : ∀ s s' : Progress, s.decl = s'.decl → Alike k (f s) (g s')) :
    Alike k (BodyM.ofDecl DeclM.state >>= f) (BodyM.ofDecl DeclM.state >>= g) := by
  intro c s s' hs
  obtain ⟨e, rfl, he⟩ := Progress.exists_of_erase hs
  exact Alike.bind_id (Alike.pure (a := ()) rfl) (fun _ => hf s { s with emitted := e } rfl) c hs

end BodyM

/-! ## Contracts -/

namespace Body

open BodyM

theorem assertGoal_alike (b : Body) (v : View) (e : Source.Expr) (inherited : Bool)
    (note : String) :
    Alike id (b.assertGoal v e inherited note) (b.assertGoal v e inherited note) := by
  refine Alike.bind_context fun c => (Alike.ofDecl (split_alike v e true)).bind
    fun ps ps' hps => .add ?_
  -- A statement for each part does not look at its formula.
  have stmts (F : GoalPart → IL.Stmt) (hF : ∀ p, (F p).erase = F p.erase) (q : PartKind → Bool) :
      ((ps.filter fun p => q p.kind).map F).map Stmt.erase =
        ((ps'.filter fun p => q p.kind).map F).map Stmt.erase := by
    have (ps : List GoalPart) : ((ps.filter fun p => q p.kind).map F).map Stmt.erase =
        ((ps.map GoalPart.erase).filter fun p => q p.kind).map F := by
      rw [← GoalPart.map_erase_filter, List.map_map, List.map_map]
      exact List.map_congr_left fun p _ => hF p
    rw [this, this, hps]
  rw [List.map_append, List.map_append]
  refine congr (congrArg _ (stmts _ ?_ (·.isChecked))) (stmts _ ?_ (!·.isChecked))
  · intro p
    rw [apply_ite Stmt.erase, Stmt.erase_assert, Stmt.erase_assume]
    rfl
  · intro p
    rw [Stmt.erase_assume]
    rfl

theorem establish_alike (b : Body) (v : View) (note : String) (specs : List Spec) :
    Alike id (b.establish v note specs) (b.establish v note specs) := by
  refine .forM_id fun s => (define_alike v s.expr).bind_id fun _ => ?_
  split
  · exact (Alike.ofExpr (lowerExpr_alike s.expr v)).bind fun _ _ ha => assume_alike ha
  · exact b.assertGoal_alike v s.expr s.inherited note

theorem assignOuts_alike (b : Body) (v : View) (es : List Source.Expr) :
    Alike id (b.assignOuts v es) (b.assignOuts v es) := by
  refine Alike.bind_id ?_ fun values => ?_
  · refine .mapM_same fun p => (value_alike v p.1).bind fun x x' hx => ?_
    have hconv : (Boxing.convert p.1.typ p.2.2 x).erase = (Boxing.convert p.1.typ p.2.2 x').erase := by
      simp [hx]
    exact (assertNat_alike _ _ hconv).bind_id fun _ => temp_alike _ hconv
  · exact .forM_id fun p => assign_alike _ rfl

end Body

/-! ## Assignments -/

open BodyM

theorem Target.store_alike (t : Target) {e e' : IL.Expr} (he : e.erase = e'.erase) :
    Alike id (t.store e) (t.store e') := by
  cases t with
  | var x t => exact assign_alike x he
  | heap o f t => exact updateHeap_alike o f (by simp [he])
  | range a lo hi t =>
    exact havocHeap_alike.bind_id fun prev => assume_alike (by simp [he])

theorem arrayElem_alike (arr : Source.Expr) : ExprM.Alike id (arrayElem arr) (arrayElem arr) := by
  unfold arrayElem
  split
  · exact .pure rfl
  · exact .broken _

theorem arrayLengthOf_alike (a : IL.Expr) :
    Alike IL.Expr.erase (ofDecl (DeclM.ofExpr (Heap.arrayLength a)))
      (ofDecl (DeclM.ofExpr (Heap.arrayLength a))) :=
  .ofExpr (Heap.arrayLength_alike rfl)

theorem Target.ofLhs_alike (v : View) (lhs : Lhs) :
    Alike id (Target.ofLhs v lhs) (Target.ofLhs v lhs) := by
  cases lhs with
  | var => exact .pure rfl
  | field span obj fid =>
    refine (Alike.ofExpr (.field fid)).bind_id fun f => ?_
    dsimp only
    split
    · exact .ofDecl (.reject _)
    · refine (value_alike v obj).bind fun x x' hx => (temp_alike _ hx).bind_id fun o => ?_
      refine (assertNonNull_alike obj rfl).bind_id fun _ => (assert_alike _ rfl).bind_id fun _ => ?_
      exact (Alike.ofExpr (Heap.fieldHandle_alike f)).bind_id fun _ => .pure rfl
  | index span arr idx =>
    refine (Alike.ofExpr (arrayElem_alike arr)).bind_id fun elem => ?_
    refine (define_alike v arr).bind_id fun _ => (define_alike v idx).bind_id fun _ => ?_
    refine (Alike.ofExpr (lowerExpr_alike arr v)).bind fun x x' hx => ?_
    refine (temp_alike _ hx).bind_id fun a => ?_
    refine (Alike.ofExpr (lowerExpr_alike idx v)).bind fun y y' hy => ?_
    refine (temp_alike _ hy).bind_id fun i => (assertNonNull_alike arr rfl).bind_id fun _ => ?_
    refine (arrayLengthOf_alike a).bind fun n n' hn => ?_
    refine (assert_alike _ (by simp [hn])).bind_id fun _ => ?_
    exact (assert_alike _ rfl).bind_id fun _ => .pure rfl
  | range span arr lo hi =>
    refine (Alike.ofExpr (arrayElem_alike arr)).bind_id fun elem => ?_
    refine (define_alike v arr).bind_id fun _ => (define_alike v lo).bind_id fun _ => ?_
    refine (define_alike v hi).bind_id fun _ => ?_
    refine (Alike.ofExpr (lowerExpr_alike arr v)).bind fun x x' hx => ?_
    refine (temp_alike _ hx).bind_id fun a => ?_
    refine (Alike.ofExpr (lowerExpr_alike lo v)).bind fun y y' hy => ?_
    refine (temp_alike _ hy).bind_id fun l => ?_
    refine (Alike.ofExpr (lowerExpr_alike hi v)).bind fun z z' hz => ?_
    refine (temp_alike _ hz).bind_id fun h => (assertNonNull_alike arr rfl).bind_id fun _ => ?_
    refine (arrayLengthOf_alike a).bind fun n n' hn => ?_
    refine (assert_alike _ (by simp [hn])).bind_id fun _ => ?_
    exact (assert_alike _ rfl).bind_id fun _ => .pure rfl

theorem allocate_alike (p : Path) : Alike id (allocate p) (allocate p) := by
  refine (Alike.ofDecl .freshId).bind_id fun n => (declareLocal_alike _ _).bind_id fun _ => ?_
  refine (havoc_alike _).bind_id fun _ => (Alike.ofExpr (Heap.dtypeIs_alike p rfl)).bind
    fun t t' ht => ?_
  refine (assume_alike (by simp [ht])).bind_id fun _ => ?_
  exact (updateHeap_alike _ _ rfl).bind_id fun _ => .pure rfl

theorem assumeFields_alike (o : IL.Expr) (fields : List Field) :
    Alike id (assumeFields o fields) (assumeFields o fields) :=
  .forM_id fun f => (Alike.ofExpr (Heap.fieldHandle_alike f)).bind_id fun _ =>
    (Alike.ofExpr (whereClause_alike _ rfl rfl)).bind fun _ _ ho => assume?_alike ho

theorem assumeElements_alike (a n : IL.Expr) (elem : Typ) :
    Alike id (assumeElements a n elem) (assumeElements a n elem) :=
  (Alike.ofExpr (whereClause_alike _ rfl rfl)).bind fun _ _ ho =>
    assume?_alike (map_erase_congr ho fun w w' hw => by simp [hw])

theorem evalRhs_alike (v : View) (target : Typ) (rhs : Rhs) :
    Alike IL.Expr.erase (evalRhs v target rhs) (evalRhs v target rhs) := by
  cases rhs with
  | expr e =>
    refine (value_alike v e).bind fun x x' hx => ?_
    have hconv : (Boxing.convert e.typ target x).erase = (Boxing.convert e.typ target x').erase := by
      simp [hx]
    exact (assertNat_alike e target hconv).bind_id fun _ => .pure hconv
  | havoc t =>
    refine (Alike.ofDecl .freshId).bind_id fun n => (declareLocal_alike _ _).bind_id fun _ => ?_
    refine (havoc_alike _).bind_id fun _ => ?_
    refine (Alike.ofExpr (whereClause_alike t rfl rfl)).bind fun o o' ho => ?_
    exact (assume?_alike ho).bind_id fun _ => .pure rfl
  | new path ts =>
    refine (allocate_alike path).bind_id fun o => .bind_context fun c => ?_
    refine (Alike.ofExpr (.ofExcept (h := id) _)).bind_id fun k => ?_
    exact (assumeFields_alike o k.fields).bind_id fun _ => .pure rfl
  | newArray elem length =>
    refine (value_alike v length).bind fun x x' hx => (temp_alike _ hx).bind_id fun n => ?_
    refine (assert_alike _ rfl).bind_id fun _ => (allocate_alike _).bind_id fun a => ?_
    refine (arrayLengthOf_alike a).bind fun l l' hl => ?_
    refine (assume_alike (by simp [hl])).bind_id fun _ => ?_
    exact (assumeElements_alike a n elem).bind_id fun _ => .pure rfl

/-- The store without triggers. -/
def Store.erase (s : Store) : Store := { s with value := s.value.erase }

theorem orderedPairs_map {α β : Type} (f : α → β) (l : List α) :
    (orderedPairs l).map (Prod.map f f) = orderedPairs (l.map f) := by
  induction l with
  | nil => rfl
  | cons a l ih => simp [orderedPairs, ih, Function.comp_def]

theorem assertDistinct_alike {s s' t t' : Store} (hs : s.erase = s'.erase)
    (ht : t.erase = t'.erase) : Alike id (assertDistinct s t) (assertDistinct s' t') := by
  obtain ⟨span, target, value⟩ := s
  obtain ⟨span', target', value'⟩ := s'
  obtain ⟨tspan, ttarget, tvalue⟩ := t
  obtain ⟨tspan', ttarget', tvalue'⟩ := t'
  simp only [Store.erase, Store.mk.injEq] at hs ht
  obtain ⟨rfl, rfl, hv⟩ := hs
  obtain ⟨rfl, rfl, hw⟩ := ht
  unfold assertDistinct
  dsimp only
  split
  · exact .pure rfl
  · exact assert_alike _ (by simp [hv, hw])

theorem lowerAssign_alike (v : View) (span : Span) (lhss : List Lhs) (rhss : List Rhs) :
    Alike id (lowerAssign v span lhss rhss) (lowerAssign v span lhss rhss) := by
  unfold lowerAssign
  refine (Alike.mapM_same (Target.ofLhs_alike v)).bind_id fun targets => ?_
  dsimp only
  split
  · exact .ofDecl (.reject _)
  refine Alike.bind (h := List.map Store.erase) (.mapM_id fun p => ?_) fun ss ss' hss => ?_
  · obtain ⟨⟨lhs, target⟩, rhs⟩ := p
    refine (evalRhs_alike v target.typ rhs).bind fun x x' hx => ?_
    dsimp only
    split
    · exact (temp_alike _ hx).bind_id fun _ => .pure rfl
    · exact .pure (by simp [Store.erase, hx])
  have hpairs : (orderedPairs ss).map (Prod.map Store.erase Store.erase) =
      (orderedPairs ss').map (Prod.map Store.erase Store.erase) := by
    rw [orderedPairs_map, orderedPairs_map, hss]
  refine (Alike.forM hpairs fun p p' hp => ?_).bind_id fun _ => .forM hss fun s s' hs => ?_
  · exact assertDistinct_alike (congrArg Prod.fst hp) (congrArg Prod.snd hp)
  · obtain ⟨span, target, value⟩ := s
    obtain ⟨span', target', value'⟩ := s'
    simp only [Store.erase, Store.mk.injEq] at hs
    obtain ⟨-, rfl, hv⟩ := hs
    exact Target.store_alike target hv

/-! ## Calls -/

theorem callKind_alike (callee : Path) : ExprM.Alike id (callKind callee) (callKind callee) := by
  refine .bind_env fun env => ?_
  have kind (b : Bool) : ExprM.Alike id
      (if b then pure ProcKind.coCall else do
        if ← ExprM.isSameModule callee then return .intraModuleCall else return .interModuleCall)
      (if b then pure ProcKind.coCall else do
        if ← ExprM.isSameModule callee then return .intraModuleCall else return .interModuleCall) := by
    cases b with
    | true => exact .pure rfl
    | false =>
      refine (ExprM.Alike.isSameModule callee).bind_id fun same => ?_
      cases same <;> exact .pure rfl
  obtain ⟨c, member, module, handles⟩ := env
  cases member with
  | none => exact kind false
  | some m => exact (ExprM.Alike.inSameComponent m callee).bind_id kind

theorem passArg_alike (s : Srt) {e e' : IL.Expr} (he : e.erase = e'.erase) :
    Alike id (passArg s e) (passArg s e') :=
  (Alike.ofDecl .freshId).bind_id fun _ => storeIn_alike _ s he

theorem passReceiver_alike (v : View) (receiver : Option Source.Expr) :
    Alike id (passReceiver v receiver) (passReceiver v receiver) := by
  cases receiver with
  | none => exact passArg_alike _ rfl
  | some e =>
    refine (value_alike v e).bind fun x x' hx => (assertNonNull_alike e hx).bind_id fun _ => ?_
    exact passArg_alike _ hx

theorem passArgs_alike (v : View) (params : List Source.Binder) (args : List Source.Expr) :
    Alike id (passArgs v params args) (passArgs v params args) := by
  refine .mapM_same fun p => (value_alike v p.1).bind fun x x' hx => ?_
  have hconv : (Boxing.convert p.1.typ p.2.2 x).erase = (Boxing.convert p.1.typ p.2.2 x').erase := by
    simp [hx]
  exact (assertNat_alike _ _ hconv).bind_id fun _ => (passArg_alike _ hconv).bind_id fun _ =>
    .pure rfl

theorem resultLocals_alike (outs : List Source.Binder) :
    DeclM.Alike id (resultLocals outs) (resultLocals outs) := by
  rw [← List.map_id_fun]
  exact DeclM.Alike.mapM fun out _ => DeclM.Alike.freshId.bind_id fun _ =>
    (DeclM.Alike.declareLocal _ _).bind_id fun _ => .pure rfl

theorem frameIncludes_erase (v : View) {a a' : IL.Expr} (ha : a.erase = a'.erase) :
    (frameIncludes v a).erase = (frameIncludes v a').erase := by
  simp [frameIncludes, ha]

namespace Body

theorem lowerCall_alike (b : Body) (v : View) (span : Span) (m : Path)
    (receiver : Option Source.Expr) (args : List Source.Expr) (outs : List Lhs) :
    Alike id (b.lowerCall v span m receiver args outs)
      (b.lowerCall v span m receiver args outs) := by
  rw [lowerCall_eq]
  refine .bind_context fun c => (Alike.ofExpr (.ofExcept (h := id) _)).bind_id fun callee => ?_
  refine (Alike.mapM_same (Target.ofLhs_alike v)).bind_id fun targets => ?_
  refine Alike.bind_id ?_ fun this => (passArgs_alike v callee.ins args).bind_id fun rest => ?_
  · unfold passThis
    split
    · exact .pure rfl
    · exact (passReceiver_alike v receiver).bind_id fun _ => .pure rfl
  refine Alike.bind_id ?_ fun _ => Alike.bind_id ?_ fun _ => ?_
  · unfold assertModifies
    split
    · exact (Alike.ofExpr (frameContains_alike _ _ rfl)).bind fun a a' ha =>
        assert_alike _ (frameIncludes_erase v (by simp [ha]))
    · exact .pure rfl
  · unfold assertDescends
    split
    · exact .pure rfl
    · refine (Alike.ofExpr (Termination.callChecks_alike _ rfl m _ rfl span)).bind
        fun cs cs' hcs => .add ?_
      have := congrArg (List.map fun c => IL.Stmt.assert c.2 c.1) hcs
      simpa [Function.comp_def] using this
  · refine (Alike.ofExpr (callKind_alike m)).bind_id fun kind => ?_
    refine (Alike.ofDecl (resultLocals_alike callee.outs)).bind_id fun results => ?_
    exact (Alike.add rfl).bind_id fun _ => .forM_id fun p => Target.store_alike p.1.1 rfl

end Body

end ContractLowering
