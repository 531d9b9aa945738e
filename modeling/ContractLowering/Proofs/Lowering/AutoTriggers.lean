import ContractLowering.Lowering.Program
import ContractLowering.Proofs.Lowering.AlikeStmts

/-!
# Chosen triggers are a hint

Main statement: a program lowered with and without chosen triggers is refused with the same
diagnostics, is broken in the same way, or becomes programs that are equal declaration by
declaration once triggers are erased. The two runs stay in step through every declaration: they take
the same fresh numbers, declare the same locals and ask for the same fields and classes.
-/

namespace ContractLowering

open IL Source

attribute [local simp] Boxing.ren_box Boxing.ren_unbox Boxing.ren_convert Boxing.boxBool
  Boxing.unboxBool Prelude.heapVar Prelude.null Prelude.alloc Prelude.read Prelude.dtype
  Prelude.isGoodHeap Prelude.heapSucc Prelude.isAllocDt Heap.obj Heap.fld Heap.isAlloc
  Heap.nonNullAlloc Heap.frameCondition

/-! ## Emitted declarations -/

theorem map_erase_assumed (es : List IL.Expr) :
    (es.map Clause.assumed).map Clause.erase = (es.map IL.Expr.erase).map Clause.assumed := by
  simp

theorem Heap.receiverWhere_alike (p : Path) (this heap : IL.Expr) :
    ExprM.Alike IL.Expr.erase (Heap.receiverWhere p this heap) (Heap.receiverWhere p this heap) :=
  (Heap.dtypeIs_alike p rfl).bind fun _ _ ha => .pure (by simp [ha])

namespace Source.Function

variable (f : Function)

theorem receiverHyps_alike (heap : IL.Expr) :
    ExprM.Alike (List.map IL.Expr.erase) (f.receiverHyps heap) (f.receiverHyps heap) := by
  unfold receiverHyps
  cases f.owner with
  | none => exact .pure rfl
  | some p => exact (Heap.receiverWhere_alike p _ heap).bind fun _ _ ha => .pure (by simp [ha])

theorem formalHyps_alike (heap : IL.Expr) :
    ExprM.Alike (List.map IL.Expr.erase) (f.formalHyps heap) (f.formalHyps heap) :=
  (f.receiverHyps_alike heap).bind fun this this' hthis =>
    (whereClauses_alike heap f.params).bind fun ws ws' hws => .pure (by simp [hthis, hws])

theorem postFact?_alike :
    ExprM.Alike (Option.map IL.Expr.erase) f.postFact? f.postFact? := by
  refine (f.formalHyps_alike _).bind fun hyps hyps' hhyps => ?_
  refine (lowerTerms_alike _ fun e _ => lowerExpr_alike e).bind fun pre pre' hpre => ?_
  refine (whereClause_alike f.result.2 rfl rfl).bind fun o o' ho => ?_
  refine (lowerTerms_alike _ fun e _ => lowerExpr_alike e).bind fun es es' hes => ?_
  have hposts : (o.toList ++ es).map IL.Expr.erase = (o'.toList ++ es').map IL.Expr.erase := by
    rw [List.map_append, List.map_append, ← Option.toList_map, ← Option.toList_map, ho, hes]
  have hempty : (o.toList ++ es).isEmpty = (o'.toList ++ es').isEmpty := by
    rw [← List.isEmpty_map (f := IL.Expr.erase), hposts, List.isEmpty_map]
  dsimp only
  rw [hempty]
  split
  · exact .pure rfl
  · exact .pure (by simp [hhyps, hpre, hposts])

theorem definition_alike (body : Source.Expr) (layer : Layer) :
    ExprM.Alike IL.Expr.erase (f.definition body layer) (f.definition body layer) := by
  refine (f.formalHyps_alike _).bind fun hyps hyps' hhyps => ?_
  refine (lowerTerms_alike _ fun e _ => lowerExpr_alike e).bind fun pre pre' hpre => ?_
  refine (lowerExpr_alike body _).bind fun a a' ha => ?_
  exact (canCall_alike _ body).bind fun w w' hw => .pure (by simp [hhyps, hpre, ha, hw])

theorem caseDefinition_alike (n : Nat) (dt : Path) (p : Pattern) (body : Source.Expr) :
    ExprM.Alike IL.Expr.erase (f.caseDefinition n dt p body) (f.caseDefinition n dt p body) := by
  refine (lowerExpr_alike _ _).bind fun x x' hx => ?_
  refine (f.receiverHyps_alike _).bind fun this this' hthis => ?_
  refine (ExprM.Alike.mapM fun q _ => whereClause_alike q.1.2 ?_ rfl).bind fun ws ws' hws => ?_
  · split
    · exact hx
    · rfl
  refine (lowerTerms_alike _ fun e _ => lowerExpr_alike e).bind fun pre pre' hpre => ?_
  refine (lowerExpr_alike _ _).bind fun a a' ha => ?_
  refine (canCall_alike _ _).bind fun w w' hw => .pure ?_
  have hwheres : (ws.filterMap fun w => w).map IL.Expr.erase =
      (ws'.filterMap fun w => w).map IL.Expr.erase := map_erase_filterMap hws
  simp [apply, hx, hthis, hwheres, hpre, ha, hw, List.map_set]

theorem frameFact_alike : ExprM.Alike IL.Expr.erase f.frameFact f.frameFact :=
  (frameContains_alike _ f.reads rfl).bind fun a a' ha =>
    (f.receiverHyps_alike _).bind fun this this' hthis => .pure (by simp [ha, hthis])

theorem checkPost_alike (v : View) {l l' : Limits} (hl : l.erase = l'.erase) :
    BodyM.Alike id (f.checkPost v l) (f.checkPost v l') := by
  refine (BodyM.havoc_alike _).bind_id fun _ => ?_
  refine (BodyM.Alike.ofExpr (whereClause_alike f.result.2 rfl rfl)).bind fun o o' ho => ?_
  refine (BodyM.assume?_alike ho).bind_id fun _ => ?_
  refine BodyM.Alike.bind_id ?_ fun _ => BodyM.assume_alike rfl
  exact .forM_id fun s => BodyM.defineAndAssume_alike v hl s.expr

theorem checkBody_alike (v : View) {l l' : Limits} (hl : l.erase = l'.erase)
    (body : Source.Expr) : BodyM.Alike id (f.checkBody v l body) (f.checkBody v l' body) := by
  refine (BodyM.Alike.ofExpr (definedness_alike v hl body)).bind fun ss ss' hss => ?_
  refine (BodyM.Alike.add hss).bind_id fun _ => ?_
  refine (BodyM.Alike.ofExpr (lowerExpr_alike body v)).bind fun a a' ha => ?_
  refine (BodyM.assign_alike _ (by simp [ha])).bind_id fun _ => .forM_id fun s => ?_
  exact Body.assertGoal_alike _ v s.expr s.inherited _

theorem checkAll_alike (v : View) : BodyM.Alike id (f.checkAll v) (f.checkAll v) := by
  refine (BodyM.Alike.ofExpr (Termination.values_alike v _)).bind fun olds olds' holds => ?_
  -- The limits of the contract and of the body.
  have limits (inferred wildcard : Bool) (reads : Option (List Source.Expr)) :
      Limits.erase ⟨reads, some ⟨f.name, olds, inferred, wildcard⟩⟩ =
        Limits.erase ⟨reads, some ⟨f.name, olds', inferred, wildcard⟩⟩ := by
    simp [Limits.erase, Termination.Entry.erase, holds]
  refine (BodyM.Alike.forM_id fun e => BodyM.defineAndAssume_alike v (limits _ _ none) e).bind_id
    fun _ => (BodyM.declareLocal_alike _ _).bind_id fun _ => ?_
  refine (f.checkPost_alike v (limits _ _ none)).block.bind fun post post' hpost => ?_
  refine .bind_context fun c => ?_
  refine (BodyM.Alike.forM_option fun e => f.checkBody_alike v (limits _ _ _) e).block.bind
    fun body body' hbody => .add (by simp [hpost, hbody])

theorem emitCheck_alike : DeclM.Alike id f.emitCheck f.emitCheck := by
  refine (DeclM.Alike.ofExpr (f.formalHyps_alike _)).bind fun hyps hyps' hhyps => ?_
  refine (DeclM.Alike.emit ?_).bind_id fun _ => ?_
  · simp only [Decl.erase, map_erase_assumed, hhyps]
  refine DeclM.Alike.bind (f.checkAll_alike _) fun p p' hp => ?_
  refine DeclM.Alike.takeLocals.bind_id fun locals => .emit ?_
  have hbody : p.2.map Stmt.erase = p'.2.map Stmt.erase := congrArg Prod.snd hp
  simp [Decl.erase, hbody]

theorem emitDefinitions_alike (recursive : Bool) (body : Source.Expr) :
    DeclM.Alike id (f.emitDefinitions recursive body) (f.emitDefinitions recursive body) := by
  refine (DeclM.Alike.ofExpr (f.definition_alike body .normal)).bind fun a a' ha => ?_
  refine (DeclM.Alike.emitFact ha).bind_id fun _ => ?_
  split
  · refine (DeclM.Alike.ofExpr (f.definition_alike body .unrolled)).bind fun b b' hb => ?_
    refine (DeclM.Alike.emitFact hb).bind_id fun _ => ?_
    split
    · exact .pure rfl
    · exact .forM fun arm _ => (DeclM.Alike.ofExpr (f.caseDefinition_alike _ _ arm.1 arm.2)).bind
        fun _ _ hd => .emitFact hd
  · exact .pure rfl

theorem lower_alike : DeclM.Alike id f.lower f.lower := by
  refine DeclM.Alike.within ?_ _ _ _
  refine (DeclM.Alike.ofExpr (.isRecursive f.name)).bind_id fun recursive => ?_
  refine (DeclM.Alike.forM fun l _ => .emit rfl).bind_id fun _ => ?_
  refine .optional ?_ fun rest => (DeclM.Alike.forM fun e _ => .emitFact rfl).bind_id fun _ => rest
  refine (DeclM.Alike.ofExpr f.postFact?_alike).bind fun o o' ho => ?_
  refine (DeclM.Alike.emitFact? ho).bind_id fun _ => ?_
  refine .optional ?_ fun rest => (DeclM.Alike.ofExpr f.frameFact_alike).bind fun a a' ha =>
    (DeclM.Alike.emitFact ha).bind_id fun _ => rest
  exact .optional f.emitCheck_alike fun rest =>
    (DeclM.Alike.forM_option fun body => f.emitDefinitions_alike recursive body).bind_id
      fun _ => rest

end Source.Function

namespace Source.Method

variable (m : Method)

theorem specClauses_alike (v : View) (note : String) (isRefined : Bool) (s : Spec) :
    DeclM.Alike (List.map Clause.erase) (m.specClauses v note isRefined s)
      (m.specClauses v note isRefined s) := by
  refine .bind_context fun c => ?_
  dsimp only
  have calls {cs cs' : List Clause} (hcs : cs.map Clause.erase = cs'.map Clause.erase) :
      DeclM.Alike (List.map Clause.erase)
        (DeclM.ofExpr (canCall v s.expr) >>= fun w => pure (cs ++ [.assumed w]))
        (DeclM.ofExpr (canCall v s.expr) >>= fun w => pure (cs' ++ [.assumed w])) :=
    (DeclM.Alike.ofExpr (canCall_alike v s.expr)).bind fun w w' hw => .pure (by simp [hcs, hw])
  split
  · refine (DeclM.Alike.ofExpr (lowerExpr_alike s.expr v)).bind fun a a' ha => ?_
    exact calls (by simp [ha])
  · refine (split_alike v s.expr true).bind fun ps ps' hps => calls ?_
    -- A clause for each part does not look at its formula.
    have clauses (F : GoalPart → Clause) (hF : ∀ p, (F p).erase = F p.erase) :
        (ps.map F).map Clause.erase = (ps'.map F).map Clause.erase := by
      have (ps : List GoalPart) :
          (ps.map F).map Clause.erase = (ps.map GoalPart.erase).map F := by
        simp [hF]
      rw [this, this, hps]
    refine clauses _ fun p => ?_
    rw [apply_ite Clause.erase, Clause.erase_checked, Clause.erase_assumed]
    rfl

theorem specsClauses_alike (v : View) (note : String) (isRefined : Bool) (specs : List Spec) :
    DeclM.Alike (List.map Clause.erase) (m.specsClauses v note isRefined specs)
      (m.specsClauses v note isRefined specs) := by
  refine (DeclM.Alike.mapM fun s _ => m.specClauses_alike v note isRefined s).bind
    fun cs cs' hcs => .pure ?_
  rw [List.map_flatten, List.map_flatten]
  exact congrArg List.flatten hcs

theorem entryFacts_alike (heap : IL.Expr) :
    ExprM.Alike (List.map IL.Expr.erase) (m.entryFacts heap) (m.entryFacts heap) := by
  have params {this this' : List IL.Expr} (hthis : this.map IL.Expr.erase = this'.map IL.Expr.erase) :
      ExprM.Alike (List.map IL.Expr.erase)
        (m.ins.mapM (fun p => whereClauseExtended p.2 (.var p.1) heap) >>= fun ws =>
          pure (Prelude.isGoodHeap heap :: (this ++ ws.filterMap id)))
        (m.ins.mapM (fun p => whereClauseExtended p.2 (.var p.1) heap) >>= fun ws =>
          pure (Prelude.isGoodHeap heap :: (this' ++ ws.filterMap id))) := by
    refine (ExprM.Alike.mapM fun p _ => whereClauseExtended_alike p.2 rfl rfl).bind
      fun ws ws' hws => .pure ?_
    rw [List.map_cons, List.map_cons, List.map_append, List.map_append, hthis,
      map_erase_filterMap hws]
  unfold entryFacts
  cases m.owner with
  | none => exact params rfl
  | some p => exact (Heap.receiverWhere_alike p _ heap).bind fun a a' ha => params (by simp [ha])

theorem exitFacts_alike (v : View) :
    ExprM.Alike (List.map IL.Expr.erase) (m.exitFacts v) (m.exitFacts v) := by
  refine (whereClauses_alike v.heap m.outs).bind fun ws ws' hws => ?_
  refine (frameContains_alike v.old m.modifies rfl).bind fun a a' ha => .pure ?_
  simp [hws, ha]

theorem emitProcedure_alike (kind : ProcKind) :
    DeclM.Alike id (m.emitProcedure kind) (m.emitProcedure kind) := by
  refine (DeclM.Alike.ofExpr (m.entryFacts_alike _)).bind fun ins ins' hins => ?_
  refine (m.specsClauses_alike _ _ _ m.requires).bind fun pre pre' hpre => ?_
  refine (DeclM.Alike.ofExpr (m.exitFacts_alike _)).bind fun outs outs' houts => ?_
  refine (m.specsClauses_alike _ _ _ m.ensures).bind fun post post' hpost => .emit ?_
  simp only [Decl.erase, List.map_append, map_erase_assumed, hins, hpre, houts, hpost]

theorem checkContract_alike (v : View) :
    BodyM.Alike id (m.checkContract v) (m.checkContract v) := by
  refine (BodyM.Alike.forM_id fun e => BodyM.defineAndAssume_alike v rfl e).bind_id fun _ => ?_
  refine (BodyM.havoc_alike _).bind_id fun _ => ?_
  refine (BodyM.Alike.ofExpr (m.exitFacts_alike v)).bind fun es es' hes => ?_
  refine (BodyM.Alike.forM hes fun _ _ ha => BodyM.assume_alike ha).bind_id fun _ => ?_
  refine BodyM.Alike.bind_id (.forM_id fun p => ?_) fun _ => .forM_id fun s =>
    BodyM.defineAndAssume_alike v rfl s.expr
  refine (BodyM.havoc_alike _).bind_id fun _ => ?_
  exact (BodyM.Alike.ofExpr (whereClause_alike p.2 rfl rfl)).bind fun _ _ ho =>
    BodyM.assume?_alike ho

theorem emitCheck_alike : DeclM.Alike id m.emitCheck m.emitCheck := by
  refine (DeclM.Alike.ofExpr (m.entryFacts_alike _)).bind fun ins ins' hins => ?_
  refine (DeclM.Alike.emit ?_).bind_id fun _ => ?_
  · simp only [Decl.erase, map_erase_assumed, hins]
  refine DeclM.Alike.bind (m.checkContract_alike _) fun p p' hp => ?_
  refine DeclM.Alike.takeLocals.bind_id fun locals => .emit ?_
  have hbody : p.2.map Stmt.erase = p'.2.map Stmt.erase := congrArg Prod.snd hp
  simp [Decl.erase, hbody]

theorem assumeHypothesis_alike (v : View) :
    BodyM.Alike id (m.assumeHypothesis v) (m.assumeHypothesis v) := by
  refine (BodyM.Alike.ofExpr (inductionVars_alike m.induction m.ins _)).bind_id fun vars => ?_
  split
  · exact (BodyM.Alike.ofDecl (lemmaHypothesis_alike v m.span m.ins vars _ _)).bind
      fun _ _ ha => BodyM.assume_alike ha
  · exact .pure rfl

theorem lowerBody_alike (body : Source.Stmt) :
    BodyM.Alike id (m.lowerBody body) (m.lowerBody body) := by
  refine (BodyM.declareLocal_alike _ _).bind_id fun _ => ?_
  refine (BodyM.Alike.ofExpr (frameSet_alike _ m.modifies _)).bind fun a a' ha => ?_
  refine (BodyM.assign_alike _ ha).bind_id fun _ => ?_
  refine (BodyM.Alike.ofExpr (whereClauses_alike _ m.outs)).bind fun ws ws' hws => ?_
  refine (BodyM.Alike.forM hws fun _ _ ha => BodyM.assume_alike ha).bind_id fun _ => ?_
  refine (BodyM.Alike.ofExpr (Termination.values_alike _ _)).bind fun vs vs' hvs => ?_
  refine (BodyM.snapshot_alike _ hvs).bind_id fun olds => ?_
  dsimp only
  split
  · exact (m.assumeHypothesis_alike _).bind_id fun _ => Body.lowerStmt_alike body _
  · exact Body.lowerStmt_alike body _

theorem emitBody_alike (body : Source.Stmt) :
    DeclM.Alike id (m.emitBody body) (m.emitBody body) := by
  refine (m.emitProcedure_alike .impl).bind_id fun _ => ?_
  refine DeclM.Alike.bind (m.lowerBody_alike body) fun p p' hp => ?_
  refine DeclM.Alike.takeLocals.bind_id fun locals => .emit ?_
  have hbody : p.2.map Stmt.erase = p'.2.map Stmt.erase := congrArg Prod.snd hp
  simp [Decl.erase, hbody]

theorem lower_alike : DeclM.Alike id m.lower m.lower := by
  refine DeclM.Alike.within ?_ _ _ _
  refine (DeclM.Alike.forM fun kind _ => m.emitProcedure_alike kind).bind_id fun _ => ?_
  exact m.emitCheck_alike.bind_id fun _ => .forM_option m.emitBody_alike

end Source.Method

/-! ## Declarations -/

namespace Source.Class

variable (c : Class)

theorem fieldFact?_alike (f : Field) :
    ExprM.Alike (Option.map IL.Expr.erase) (c.fieldFact? f) (c.fieldFact? f) := by
  refine (Heap.fieldHandle_alike f).bind_id fun h => ?_
  refine (whereClause_alike f.typ rfl rfl).bind fun o o' ho => ?_
  cases o <;> cases o' <;> simp at ho
  · exact .pure rfl
  · exact (Heap.dtypeIs_alike c.path rfl).bind fun a a' ha => .pure (by simp [ha, ho])

theorem lowerHead_alike : DeclM.Alike id c.lowerHead c.lowerHead := by
  refine DeclM.Alike.within ?_ _ _ _
  refine (DeclM.Alike.ofExpr (h := id) (.of_eq fun _ => rfl)).bind_id fun _ => ?_
  exact .forM fun f _ => (DeclM.Alike.ofExpr (c.fieldFact?_alike f)).bind fun _ _ ho =>
    .emitFact? ho

theorem lower_alike : DeclM.Alike id c.lower c.lower :=
  c.lowerHead_alike.bind_id fun _ =>
    (DeclM.Alike.forM fun f _ => f.lower_alike).bind_id fun _ => .forM fun m _ => m.lower_alike

end Source.Class

theorem Source.Ctor.emitFacts_alike (c : Ctor) (dt : Path) :
    DeclM.Alike id (c.emitFacts dt) (c.emitFacts dt) := by
  refine (DeclM.Alike.emitFact rfl).bind_id fun _ => (DeclM.Alike.emitFact rfl).bind_id fun _ => ?_
  refine (DeclM.Alike.emitFact rfl).bind_id fun _ => ?_
  refine DeclM.Alike.bind (.ofExpr ?_) fun _ _ ha => .emitFact ha
  exact (whereClauses_alike _ c.fieldVars).bind fun ws ws' hws => .pure (by simp [hws])

theorem Source.Datatype.lower_alike (d : Datatype) : DeclM.Alike id d.lower d.lower := by
  refine DeclM.Alike.within ?_ _ _ _
  refine (DeclM.Alike.forM fun c _ => .forM fun _ _ => .emit rfl).bind_id fun _ => ?_
  refine (DeclM.Alike.forM fun c _ => c.emitFacts_alike d.path).bind_id fun _ => ?_
  exact .optional (.pure rfl) fun _ => .emitFact rfl

namespace Source.Iterator

variable (i : Iterator)

theorem entryFacts_alike (v : View) :
    ExprM.Alike (List.map IL.Expr.erase) (i.entryFacts v) (i.entryFacts v) := by
  refine (Heap.receiverWhere_alike i.path _ v.heap).bind fun a a' ha => ?_
  refine (ExprM.Alike.mapM fun x _ => whereClauseExtended_alike x.2 rfl rfl).bind
    fun ws ws' hws => ?_
  refine (lowerTerms_alike v fun e _ => lowerExpr_alike e).bind fun es es' hes => .pure ?_
  simp only [List.map_append, List.map_cons, List.map_nil, ha, map_erase_filterMap hws, hes]

theorem exitClauses_alike (v : View) :
    ExprM.Alike (List.map Clause.erase) (i.exitClauses v) (i.exitClauses v) := by
  refine .mapM fun s _ => (lowerExpr_alike s.expr v).bind fun a a' ha => .pure ?_
  rw [apply_ite Clause.erase, apply_ite Clause.erase]
  simp [ha]

theorem bodyStmts_alike (body : Source.Stmt) :
    BodyM.Alike id (i.bodyStmts body) (i.bodyStmts body) := by
  refine (BodyM.declareLocal_alike _ _).bind_id fun _ => ?_
  refine (BodyM.Alike.ofExpr (frameSet_alike _ i.modifies _)).bind fun a a' ha => ?_
  refine (BodyM.assign_alike _ ha).bind_id fun _ => (BodyM.declareLocal_alike _ _).bind_id fun _ => ?_
  refine (BodyM.Alike.ofDecl (.setYieldCount _)).bind_id fun _ => ?_
  refine (BodyM.assign_alike _ rfl).bind_id fun _ => BodyM.Alike.bind_id ?_ fun _ => ?_
  · exact .forM_id fun y => (BodyM.declareLocal_alike _ _).bind_id fun _ =>
      (BodyM.Alike.ofExpr (whereClause_alike y.2 rfl rfl)).bind fun _ _ ho => BodyM.assume?_alike ho
  refine (BodyM.Alike.ofExpr (Termination.values_alike _ _)).bind fun vs vs' hvs => ?_
  exact (BodyM.snapshot_alike _ hvs).bind_id fun olds => Body.lowerStmt_alike body _

theorem lowerBody_alike (body : Source.Stmt) :
    DeclM.Alike id (i.lowerBody body) (i.lowerBody body) := by
  refine DeclM.Alike.within ?_ _ _ _
  refine (DeclM.Alike.ofExpr (i.entryFacts_alike _)).bind fun ins ins' hins => ?_
  refine (DeclM.Alike.ofExpr (i.exitClauses_alike _)).bind fun outs outs' houts => ?_
  refine (DeclM.Alike.emit ?_).bind_id fun _ => ?_
  · simp only [Decl.erase, map_erase_assumed, hins, houts]
  refine DeclM.Alike.bind (i.bodyStmts_alike body) fun p p' hp => ?_
  refine DeclM.Alike.takeLocals.bind_id fun locals => .emit ?_
  have hbody : p.2.map Stmt.erase = p'.2.map Stmt.erase := congrArg Prod.snd hp
  simp [Decl.erase, hbody]

theorem lower_alike : DeclM.Alike id i.lower i.lower :=
  .bind_context fun _ => (DeclM.Alike.ofExpr (.ofExcept (h := id) _)).bind_id fun k =>
    k.lower_alike.bind_id fun _ => .forM_option i.lowerBody_alike

end Source.Iterator

theorem lowerDecls_alike (decls : List TopDecl) :
    DeclM.Alike id (lowerDecls decls) (lowerDecls decls) := by
  refine DeclM.Alike.bind_id (.forM fun d _ => ?_) fun _ => .forM fun d _ => ?_
  · cases d with
    | datatype d => exact d.lower_alike
    | cls | iterator => exact .pure rfl
  · cases d with
    | datatype => exact .pure rfl
    | cls c => exact c.lower_alike
    | iterator i => exact i.lower_alike

/-! ## Programs -/

namespace Context

theorem bind_hinted {b : Bool} {x y : Except Message Context}
    {f g : Context → Except Message Context} (hx : y = x.map (hinted b))
    (hf : ∀ c, g (c.hinted b) = (f c).map (hinted b)) : y >>= g = (x >>= f).map (hinted b) := by
  subst hx
  cases x with
  | error m => rfl
  | ok c => exact hf c

/-- Steps that do not look at the options. -/
theorem foldlM_hinted {α : Type} {add : Context → α → Except Message Context}
    (hadd : ∀ (b : Bool) (c : Context) (a : α), add (c.hinted b) a = (add c a).map (hinted b))
    (b : Bool) (as : List α) (c : Context) :
    as.foldlM add (c.hinted b) = (as.foldlM add c).map (hinted b) := by
  induction as generalizing c with
  | nil => rfl
  | cons a as ih =>
    rw [List.foldlM_cons, List.foldlM_cons]
    exact bind_hinted (hadd b c a) ih

/-- A declaration is added unless it repeats another one. -/
theorem map_ite_ok (b : Bool) (f : Context → Context) (m : Message) (c : Context) :
    (if b then .error m else .ok (f c) : Except Message Context) =
      (if b then .error m else .ok c : Except Message Context).map f := by
  cases b <;> rfl

theorem addFunction_hinted (b : Bool) (c : Context) (f : Function) :
    (c.hinted b).addFunction f = (c.addFunction f).map (hinted b) :=
  map_ite_ok (c.functions.any (·.name = f.name)) (hinted b) _ { c with functions := _ }

theorem addMethod_hinted (b : Bool) (c : Context) (m : Method) :
    (c.hinted b).addMethod m = (c.addMethod m).map (hinted b) :=
  map_ite_ok (c.methods.any (·.name = m.name)) (hinted b) _ { c with methods := _ }

theorem addOther_hinted (b : Bool) (c : Context) (d : TopDecl) :
    (c.hinted b).addOther d = (c.addOther d).map (hinted b) := by
  cases d with
  | cls => rfl
  | datatype d =>
    exact map_ite_ok (c.datatypes.any (·.path = d.path)) (hinted b) _ { c with datatypes := _ }
  | iterator i =>
    exact map_ite_ok (c.iterators.any (·.path = i.path)) (hinted b) _ { c with iterators := _ }

theorem addClass_hinted (b : Bool) (c : Context) (k : Source.Class) :
    (c.hinted b).addClass k = (c.addClass k).map (hinted b) :=
  bind_hinted (foldlM_hinted addFunction_hinted b k.functions { c with fields := _ }) fun c =>
    bind_hinted (foldlM_hinted addMethod_hinted b k.methods c) fun c =>
      map_ite_ok (c.classes.any (·.path = k.path)) (hinted b) _ { c with classes := _ }

/-- The context of a program, apart from the options, does not depend on them. -/
theorem ofProgram_hinted (program : Source.Program) (options : Options) (b : Bool) :
    ofProgram program { options with autoTriggers := b } =
      (ofProgram program options).map (hinted b) :=
  bind_hinted (foldlM_hinted addOther_hinted b (program.flatMap Source.Module.decls) { options }) fun c =>
    bind_hinted (foldlM_hinted addClass_hinted b _ c) fun _ => rfl

end Context

/-- A result without triggers. -/
def eraseResult (r : IL.Program × Diagnostics) : IL.Program × Diagnostics :=
  (r.1.map Decl.erase, r.2)

theorem lowerAfter_alike (program : Source.Program) (options : Options) (prelude : String) :
    (lowerAfter program { options with autoTriggers := true } prelude).map (List.map Decl.erase) =
      (lowerAfter program { options with autoTriggers := false } prelude).map
        (List.map Decl.erase) := by
  unfold lowerAfter
  rw [Context.ofProgram_hinted program options true, Context.ofProgram_hinted program options false]
  cases Prelude.load prelude with
  | error e => rfl
  | ok decls =>
    cases Context.ofProgram program options with
    | error m => rfl
    | ok c =>
      let start : Progress := { emitted := IL.ProgramBuilder.empty.extend decls }
      obtain ⟨hresult, hstate⟩ :=
        lowerDecls_alike (program.flatMap Source.Module.decls) c (Eq.refl start.erase)
      show (do
          (lowerDecls (program.flatMap Source.Module.decls) (c.hinted true) start).1
          pure (lowerDecls _ (c.hinted true) start).2.emitted.build).map (List.map Decl.erase) =
        (do
          (lowerDecls (program.flatMap Source.Module.decls) (c.hinted false) start).1
          pure (lowerDecls _ (c.hinted false) start).2.emitted.build).map (List.map Decl.erase)
      generalize lowerDecls _ (c.hinted true) start = x at hresult hstate ⊢
      generalize lowerDecls _ (c.hinted false) start = y at hresult hstate ⊢
      obtain ⟨r, s⟩ := x
      obtain ⟨r', s'⟩ := y
      have hemitted : s.emitted.erase = s'.emitted.erase := congrArg Progress.emitted hstate
      cases r <;> cases r' <;> simp only [Except.map] at hresult <;> cases hresult
      · rfl
      · refine congrArg Except.ok ?_
        rw [IL.ProgramBuilder.map_erase_build, IL.ProgramBuilder.map_erase_build, hemitted]

/-- Chosen triggers are only a hint: a program lowered with and without them is refused with the
same diagnostics or becomes the same program up to triggers. -/
theorem lowerProgram_autoTriggers (program : Source.Program) (options : Options)
    (prelude : String) :
    (lowerProgram program { options with autoTriggers := true } prelude).map eraseResult =
      (lowerProgram program { options with autoTriggers := false } prelude).map eraseResult := by
  have h := lowerAfter_alike program options prelude
  unfold lowerProgram
  generalize lowerAfter program { options with autoTriggers := true } prelude = r at h ⊢
  generalize lowerAfter program { options with autoTriggers := false } prelude = r' at h ⊢
  cases r <;> cases r' <;> simp only [Except.map] at h
  · cases h
    rfl
  · cases h
  · cases h
  · simp [Except.map, eraseResult, Except.ok.inj h]

end ContractLowering
