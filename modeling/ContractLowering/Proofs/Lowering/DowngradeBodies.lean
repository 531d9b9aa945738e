import ContractLowering.Proofs.Lowering.Downgrade
import ContractLowering.Proofs.Lowering.Steps

/-!
# Bodies in step with plain ones

The steps that bodies are made of do the same whether or not clauses count as inherited. Only where
a goal is asserted do flags matter: a part that is inherited, was not changed and is not verified
again is assumed instead (`Refinement.Spares`).
-/

namespace ContractLowering

open IL Source

/-! ## Obligations that refined members need not check -/

/-- A formula that the lowering of a goal checks, with the place it is reported at: a part that the
goal is split into, or the goal itself in an iteration of a loop. -/
def Source.Expr.HasPart (c : Context) (goal : Source.Expr) (e : IL.Expr) (span : Span) : Prop :=
  (∃ v s parts s', (split v goal true).Runs c s parts s' ∧
    ∃ p ∈ parts, p.kind.isChecked ∧ p.expr = e ∧ p.span = span) ∨
  ∃ v env a iteration, env.context = c ∧ (lowerExpr v goal).Returns env a ∧
    e = .imp (.var iteration) a ∧ span = goal.span

/-- A check that a refined member leaves out: it is a part of one of the goals it inherits, its
place was not changed, and nothing asks for another look. -/
structure Source.Refinement.Spares (r : Refinement) (c : Context) (goals : List Source.Expr)
    (msg : Message) (e : IL.Expr) : Prop where
  once : c.options.reverifyRefined = false
  verified : r.needsReverify = false
  part : ∃ goal ∈ goals, ∃ span, goal.HasPart c e span ∧ msg.spans = [span] ∧
    span.id ∉ r.locallyChanged

theorem Source.Refinement.spares_of_keepsCheck {r : Refinement} {c : Context}
    {goals : List Source.Expr} {inherited : Bool} {msg : Message} {span : Span} {e : IL.Expr}
    (h : r.keepsCheck c.options.reverifyRefined inherited span = false)
    (part : inherited = true → ∃ goal ∈ goals, goal.HasPart c e span)
    (hmsg : msg.spans = [span]) : r.Spares c goals msg e := by
  simp only [keepsCheck, staysCheck, Bool.or_eq_false_iff, Bool.not_eq_false'] at h
  obtain ⟨⟨hi, hc⟩, hv, ho⟩ := h
  obtain ⟨goal, hg, hpart⟩ := part hi
  exact ⟨ho, hv, goal, hg, span, hpart, hmsg, by simpa [isLocallyChanged] using hc⟩

/-- Nothing counts as inherited in a plain clause. -/
theorem Source.Refinement.keepsCheck_plain (r : Refinement) (reverify : Bool) (span : Span) :
    r.keepsCheck reverify false span = true := rfl

section

variable {J : Spared} {P : Message → IL.Expr → Prop} {c : Context}

open BodyM.Follows (ofExpr ofDecl addSame steady mapMSame forMSame forMOption)

/-! ## Steps -/

namespace BodyM

theorem assume_steady (e : IL.Expr) : (assume e).Steady J P c := addSame _

theorem assert_steady (msg : Message) (e : IL.Expr) : (assert msg e).Steady J P c := addSame _

theorem havoc_steady (x : String) : (havoc x).Steady J P c := addSame _

theorem assign_steady (x : String) (e : IL.Expr) : (assign x e).Steady J P c := addSame _

theorem assume?_steady (o : Option IL.Expr) : (assume? o).Steady J P c := by
  cases o with
  | none => exact steady ()
  | some e => exact assume_steady e

theorem declareLocal_steady (x : String) (s : Srt) :
    (ofDecl (DeclM.declareLocal x s)).Steady J P c :=
  .ofDecl (.declareLocal x s)

theorem freshId_steady : (ofDecl DeclM.freshId).Steady J P c := .ofDecl .freshId

theorem storeIn_steady (x : String) (s : Srt) (e : IL.Expr) : (storeIn x s e).Steady J P c :=
  (declareLocal_steady x s).andThen fun _ => (assign_steady x e).andThen fun _ => steady _

theorem temp_steady (s : Srt) (e : IL.Expr) : (temp s e).Steady J P c :=
  freshId_steady.andThen fun _ => storeIn_steady _ s e

theorem define_steady (v : View) (e : Source.Expr) : (define v e).Steady J P c :=
  (ofExpr (definedness_has v {} e)).andThen fun _ => addSame _

theorem value_steady (v : View) (e : Source.Expr) : (value v e).Steady J P c :=
  (define_steady v e).andThen fun _ => ofExpr (lowerExpr_has e v)

theorem defineAndAssume_steady (v : View) (limits : Limits) (e : Source.Expr) :
    (defineAndAssume v limits e).Steady J P c := by
  refine (ofExpr (definedness_has v limits e)).andThen fun _ => (addSame _).andThen fun _ => ?_
  split
  · exact (ofExpr (lowerExpr_has e v)).andThen fun _ => assume_steady _
  · exact steady ()

theorem assertNonNull_steady (obj : Source.Expr) (o : IL.Expr) :
    (assertNonNull obj o).Steady J P c := by
  unfold assertNonNull
  split
  · exact steady ()
  · exact assert_steady _ _

theorem assertNat_steady (e : Source.Expr) (target : Typ) (x : IL.Expr) :
    (assertNat e target x).Steady J P c := by
  unfold assertNat
  split
  · exact assert_steady _ _
  · exact steady ()

theorem updateHeap_steady (o f b : IL.Expr) : (updateHeap o f b).Steady J P c :=
  (assign_steady _ _).andThen fun _ => assume_steady _

theorem havocHeap_steady : havocHeap.Steady J P c :=
  freshId_steady.andThen fun _ => (storeIn_steady _ _ _).andThen fun _ =>
    (havoc_steady _).andThen fun _ => (assume_steady _).andThen fun _ => steady _

theorem snapshot_steady (name : Nat → String) (vs : List MeasureValue) :
    (snapshot name vs).Steady J P c :=
  mapMSame fun _ _ => (storeIn_steady _ _ _).andThen fun _ => steady _

end BodyM

open BodyM

theorem Body.assignOuts_steady (b : Body) (v : View) (es : List Source.Expr) :
    (b.assignOuts v es).Steady J P c :=
  .andThen (mapMSame fun _ _ => (value_steady v _).andThen fun _ =>
    (assertNat_steady _ _ _).andThen fun _ => temp_steady _ _) fun _ =>
    forMSame fun _ _ => assign_steady _ _

/-! ## Assignments -/

theorem Target.store_steady (t : Target) (e : IL.Expr) : (t.store e).Steady J P c := by
  cases t with
  | var x t => exact assign_steady x e
  | heap o f t => exact updateHeap_steady o f _
  | range a lo hi t => exact havocHeap_steady.andThen fun _ => assume_steady _

theorem arrayElem_blind (arr : Source.Expr) : (arrayElem arr).Blind := by
  unfold arrayElem
  split
  · exact .pure _
  · exact .broken _

theorem Target.ofLhs_steady (v : View) (lhs : Lhs) : (Target.ofLhs v lhs).Steady J P c := by
  cases lhs with
  | var => exact steady _
  | field span obj fid =>
    refine (ofExpr (.field fid)).andThen fun f => ?_
    dsimp only
    split
    · exact .ofDecl (.reject _)
    · exact (value_steady v obj).andThen fun _ => (temp_steady _ _).andThen fun _ =>
        (assertNonNull_steady obj _).andThen fun _ => (assert_steady _ _).andThen fun _ =>
        (ofExpr (.fieldHandle f)).andThen fun _ => steady _
  | index span arr idx =>
    exact (ofExpr (arrayElem_blind arr)).andThen fun _ => (define_steady v arr).andThen fun _ =>
      (define_steady v idx).andThen fun _ => (ofExpr (lowerExpr_has arr v)).andThen fun _ =>
      (temp_steady _ _).andThen fun _ => (ofExpr (lowerExpr_has idx v)).andThen fun _ =>
      (temp_steady _ _).andThen fun _ => (assertNonNull_steady arr _).andThen fun _ =>
      (ofExpr (.arrayLength _)).andThen fun _ => (assert_steady _ _).andThen fun _ =>
      (assert_steady _ _).andThen fun _ => steady _
  | range span arr lo hi =>
    exact (ofExpr (arrayElem_blind arr)).andThen fun _ => (define_steady v arr).andThen fun _ =>
      (define_steady v lo).andThen fun _ => (define_steady v hi).andThen fun _ =>
      (ofExpr (lowerExpr_has arr v)).andThen fun _ => (temp_steady _ _).andThen fun _ =>
      (ofExpr (lowerExpr_has lo v)).andThen fun _ => (temp_steady _ _).andThen fun _ =>
      (ofExpr (lowerExpr_has hi v)).andThen fun _ => (temp_steady _ _).andThen fun _ =>
      (assertNonNull_steady arr _).andThen fun _ => (ofExpr (.arrayLength _)).andThen fun _ =>
      (assert_steady _ _).andThen fun _ => (assert_steady _ _).andThen fun _ => steady _

theorem allocate_steady (p : Path) : (allocate p).Steady J P c :=
  freshId_steady.andThen fun _ => (declareLocal_steady _ _).andThen fun _ =>
    (havoc_steady _).andThen fun _ => (ofExpr (.dtypeIs _ p)).andThen fun _ =>
    (assume_steady _).andThen fun _ => (updateHeap_steady _ _ _).andThen fun _ => steady _

theorem assumeFields_steady (o : IL.Expr) (fields : List Field) :
    (assumeFields o fields).Steady J P c :=
  forMSame fun f _ => (ofExpr (.fieldHandle f)).andThen fun _ =>
    (ofExpr (whereClause_has _ _ _)).andThen fun _ => assume?_steady _

theorem assumeElements_steady (a n : IL.Expr) (elem : Typ) :
    (assumeElements a n elem).Steady J P c :=
  (ofExpr (whereClause_has _ _ _)).andThen fun _ => assume?_steady _

theorem evalRhs_steady (v : View) (target : Typ) (rhs : Rhs) :
    (evalRhs v target rhs).Steady J P c := by
  cases rhs with
  | expr e =>
    exact (value_steady v e).andThen fun _ => (assertNat_steady e target _).andThen fun _ =>
      steady _
  | havoc t =>
    exact freshId_steady.andThen fun _ => (declareLocal_steady _ _).andThen fun _ =>
      (havoc_steady _).andThen fun _ => (ofExpr (whereClause_has _ _ _)).andThen fun _ =>
      (assume?_steady _).andThen fun _ => steady _
  | new path ts =>
    refine (allocate_steady path).andThen fun o => .context ?_
    refine (ofDecl (.ofLookup (c.cls_plain path))).bind fun k _ hk => ?_
    subst hk
    exact (assumeFields_steady o k.fields).andThen fun _ => steady _
  | newArray elem length =>
    exact (value_steady v length).andThen fun _ => (temp_steady _ _).andThen fun _ =>
      (assert_steady _ _).andThen fun _ => (allocate_steady _).andThen fun a =>
      (ofExpr (.arrayLength a)).andThen fun _ => (assume_steady _).andThen fun _ =>
      (assumeElements_steady a _ elem).andThen fun _ => steady _

theorem assertDistinct_steady (s t : Store) : (assertDistinct s t).Steady J P c := by
  unfold assertDistinct
  split
  · exact steady ()
  · exact assert_steady _ _

theorem evalStore_steady (v : View) (several : Bool) (p : (Lhs × Target) × Rhs) :
    (evalStore v several p).Steady J P c := by
  refine (evalRhs_steady v _ _).andThen fun _ => .andThen ?_ fun _ => steady _
  unfold keepValue
  split
  · exact temp_steady _ _
  · exact steady _

theorem lowerAssign_steady (v : View) (span : Span) (lhss : List Lhs) (rhss : List Rhs) :
    (lowerAssign v span lhss rhss).Steady J P c := by
  rw [lowerAssign_eq]
  refine (mapMSame fun lhs _ => Target.ofLhs_steady v lhs).andThen fun targets =>
    .andThen ?_ fun _ => (mapMSame fun p _ => evalStore_steady v _ p).andThen fun _ =>
    (forMSame fun p _ => assertDistinct_steady p.1 p.2).andThen fun _ =>
    forMSame fun s _ => s.target.store_steady s.value
  unfold rejectRepeated
  split
  · exact .ofDecl (.reject _)
  · exact steady ()

/-! ## Calls -/

theorem callKind_blind (callee : Path) : (callKind callee).Blind := by
  refine ExprM.Trait.env _ (fun env => ?_) fun hmember _ => by rw [hmember]
  have kind (b : Bool) : (if b then pure ProcKind.coCall else do
      if ← ExprM.isSameModule callee then return .intraModuleCall
      else return .interModuleCall : ExprM ProcKind).Blind := by
    cases b with
    | true => exact .pure _
    | false =>
      refine (ExprM.Trait.Has.isSameModule callee).bind fun same => ?_
      cases same <;> exact .pure _
  cases env.member with
  | none => exact (ExprM.Trait.Has.pure _).bind kind
  | some m => exact (ExprM.Trait.Has.inSameComponent m callee).bind kind

theorem passArg_steady (s : Srt) (e : IL.Expr) : (passArg s e).Steady J P c :=
  freshId_steady.andThen fun _ => storeIn_steady _ s e

theorem passReceiver_steady (v : View) (receiver : Option Source.Expr) :
    (passReceiver v receiver).Steady J P c := by
  cases receiver with
  | none => exact (steady _).andThen fun _ => passArg_steady _ _
  | some e =>
    exact (value_steady v e).andThen fun _ => (assertNonNull_steady e _).andThen fun _ =>
      (steady _).andThen fun _ => passArg_steady _ _

theorem passArgs_steady (v : View) (params : List Source.Binder) (args : List Source.Expr) :
    (passArgs v params args).Steady J P c :=
  mapMSame fun _ _ => (value_steady v _).andThen fun _ => (assertNat_steady _ _ _).andThen fun _ =>
    (passArg_steady _ _).andThen fun _ => steady _

theorem resultLocals_steady (outs : List Source.Binder) :
    (BodyM.ofDecl (resultLocals outs)).Steady J P c := by
  refine ofDecl ?_
  unfold resultLocals
  induction outs with
  | nil => exact .steady _
  | cons out outs ih =>
    rw [List.mapM_cons]
    exact .andThen (.andThen .freshId fun _ => (DeclM.Follows.declareLocal _ _).andThen fun _ =>
      .steady _) fun _ => ih.andThen fun _ => .steady _

namespace Body

/-- The body without inherited clauses. -/
def plain (b : Body) : Body := { b with iterator := b.iterator.map Iterator.plain }

variable (b : Body)

/-- A call is lowered to the same, as nothing of the callee but its contract's clauses can be
inherited. -/
theorem lowerCall_steady (v : View) (span : Span) (m : Path) (receiver : Option Source.Expr)
    (args : List Source.Expr) (outs : List Lhs) :
    (b.lowerCall v span m receiver args outs).Follows J P c Eq
      (b.plain.lowerCall v span m receiver args outs) := by
  rw [lowerCall_eq, lowerCall_eq]
  refine .context ((ofDecl (.ofLookup (c.method_plain m))).bind fun callee _ hcallee => ?_)
  subst hcallee
  refine (mapMSame fun lhs _ => Target.ofLhs_steady v lhs).andThen fun targets => ?_
  refine .andThen (x := passThis v callee receiver) ?_ fun _ =>
    (passArgs_steady v callee.ins args).andThen fun _ =>
    .andThen (x := assertModifies v span callee _) ?_ fun _ =>
    .andThen (x := b.assertDescends v span m callee _) ?_ fun _ => ?_
  · unfold passThis
    split
    · exact steady _
    · exact (passReceiver_steady v receiver).andThen fun _ => steady _
  · unfold assertModifies
    split
    · exact (ofExpr (frameContains_has _ _ _)).andThen fun _ => assert_steady _ _
    · exact steady ()
  · unfold assertDescends
    split
    · exact steady ()
    · exact (ofExpr (Termination.callChecks_has _ _ _ _ _ _)).andThen fun _ => addSame _
  · exact (ofExpr (callKind_blind m)).andThen fun _ =>
      (resultLocals_steady callee.outs).andThen fun _ => (addSame _).andThen fun _ =>
      forMSame fun p _ => Target.store_steady p.1.1 _

/-! ## Goals -/

variable {goals : List Source.Expr}

/-- Asserting a goal leaves out checks of parts of it only if the goal is inherited. -/
theorem assertGoal_follows (v : View) (e : Source.Expr) (inherited : Bool) (note : String)
    (he : inherited = true → e ∈ goals) :
    (b.assertGoal v e inherited note).Follows J (b.refinement.Spares c goals) c Eq
      (b.plain.assertGoal v e false note) := by
  refine .context (BodyM.Follows.bindRuns (split_steady v e true) fun parts hrun =>
    .add (.append ?_ (.refl _)))
  obtain ⟨s, s', hrun⟩ := hrun
  refine .map fun p hp => ?_
  obtain ⟨hp, hchecked⟩ := List.mem_filter.mp hp
  have kept : b.plain.refinement.keepsCheck c.plain.options.reverifyRefined false p.span = true :=
    rfl
  rw [if_pos kept]
  split
  · exact .same _
  · next hkeep =>
    refine .spared (Refinement.spares_of_keepsCheck (Bool.eq_false_iff.mpr hkeep) (fun hi =>
      ⟨e, he hi, .inl ⟨v, s, parts, s', hrun, p, hp, hchecked, rfl, rfl⟩⟩) ?_)
    split <;> rfl

theorem establish_follows (v : View) (note : String) (specs : List Spec)
    (h : ∀ s ∈ specs, s.inherited = true → s.free = false → s.expr ∈ goals) :
    (b.establish v note specs).Follows J (b.refinement.Spares c goals) c Eq
      (b.plain.establish v note (specs.map Spec.plain)) := by
  refine .forM (T := fun s s' => s ∈ specs ∧ s' = s.plain) ?_ fun s _ hs => ?_
  · rw [List.forall₂_map_right_iff, List.forall₂_same]
    exact fun s hs => ⟨hs, rfl⟩
  obtain ⟨hs, rfl⟩ := hs
  refine (define_steady v s.expr).andThen fun _ => ?_
  rw [Spec.plain_free]
  cases hf : s.free with
  | true => exact (ofExpr (lowerExpr_has s.expr v)).andThen fun _ => assume_steady _
  | false =>
    exact b.assertGoal_follows v s.expr s.inherited note fun hi => h s hs hi hf

end Body

end

end ContractLowering
