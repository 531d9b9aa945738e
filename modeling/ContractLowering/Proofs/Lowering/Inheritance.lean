import ContractLowering.Lowering.Program
import ContractLowering.Proofs.Context
import ContractLowering.Proofs.Lowering.DowngradeStmts

/-!
# Refinement only leaves checks out

Main statement: a program and the plain program, in which nothing counts as inherited, are refused
alike, or become the same declarations but for some checks, which the first one assumes. A check is
left out only where a member that refines another one checks a part of a goal it inherits, at a
place that was not changed, and only if neither the member nor the options ask for it to be verified
again. These checks stand in the body that checks a function, and in the procedure and the body of a
method or an iterator.
-/

namespace ContractLowering

open IL Source BodyM

/-! ## Members -/

/-- A member as far as it inherits: the procedure that checks it, how it relates to the member it
refines, and the goals it checks and has inherited. -/
structure Source.Inheritor where
  name : Path
  kind : ProcKind
  refinement : Refinement
  goals : List Source.Expr

namespace Source

/-- The procedure that checks a member. -/
def Inheritor.proc (m : Inheritor) : String := Naming.proc m.name m.kind

def Function.inheritor (f : Function) : Inheritor :=
  ⟨f.name, .checkWellformed, f.refinement, inheritedGoals f.ensures⟩

def Method.inheritor (m : Method) : Inheritor :=
  ⟨m.name, .impl, m.refinement, inheritedGoals m.requires ++ inheritedGoals m.ensures
    ++ m.body.toList.flatMap Stmt.inheritedGoals⟩

/-- An iterator refines nothing, so none of its goals was changed or asks for another look. -/
def Iterator.inheritor (i : Iterator) : Inheritor :=
  ⟨i.path, .impl, {}, inheritedGoals i.insideView.yieldEnsures
    ++ i.body.toList.flatMap Stmt.inheritedGoals⟩

def Class.inheritors (k : Class) : List Inheritor :=
  k.functions.map Function.inheritor ++ k.methods.map Method.inheritor

def TopDecl.inheritors : TopDecl → List Inheritor
  | .cls k => k.inheritors
  | .datatype _ => []
  | .iterator i => i.toClass.inheritors ++ [i.inheritor]

/-- The members of a program. -/
def Program.inheritors (p : Program) : List Inheritor :=
  (p.flatMap (·.decls)).flatMap TopDecl.inheritors

end Source

/-- The checks that members leave out: those of clauses of procedures that hold a body, and those of
the statements of bodies. -/
def Spared.ofMembers (c : Context) (ms : List Inheritor) : Spared where
  clauses x msg e := ∃ m ∈ ms, m.kind = .impl ∧ m.proc = x ∧ m.refinement.Spares c m.goals msg e
  body x msg e := ∃ m ∈ ms, m.proc = x ∧ m.refinement.Spares c m.goals msg e

section

variable {c : Context} {ms : List Inheritor}

theorem Spared.body_of_mem {m : Inheritor} (hm : m ∈ ms) {ss ss' : List IL.Stmt}
    (h : Stmt.RelaxesAll (m.refinement.Spares c m.goals) ss ss') :
    Stmt.RelaxesAll ((Spared.ofMembers c ms).body m.proc) ss ss' :=
  h.mono fun _ _ hs => ⟨m, hm, rfl, hs⟩

end

/-! ## Functions -/

section

variable {J : Spared} {P : Message → IL.Expr → Prop} {c : Context}

open BodyM.Follows (ofExpr ofDecl addSame steady mapMSame forMSame forMOption)

theorem Heap.receiverWhere_blind (p : Path) (this heap : IL.Expr) :
    (Heap.receiverWhere p this heap).Blind :=
  (ExprM.Trait.Has.dtypeIs _ _).bind fun _ => .pure _

namespace Source.Function

variable (f : Function)

theorem receiverHyps_blind (heap : IL.Expr) : (f.receiverHyps heap).Blind := by
  unfold receiverHyps
  split
  · exact .pure _
  · exact (Heap.receiverWhere_blind _ _ _).bind fun _ => .pure _

theorem formalHyps_blind (heap : IL.Expr) : (f.formalHyps heap).Blind :=
  (f.receiverHyps_blind heap).bind fun _ => (whereClauses_has _ _).bind fun _ => .pure _

@[simp] theorem requiresExprs_plain : f.plain.requiresExprs = f.requiresExprs :=
  map_expr_plain f.requires

theorem postFact?_blind : f.postFact?.Blind := by
  refine (f.formalHyps_blind _).bind fun _ => (lowerTerms_has _ _).bind fun _ =>
    (whereClause_has _ _ _).bind fun _ => (lowerTerms_has _ _).bind fun _ => ?_
  dsimp only
  split <;> exact .pure _

theorem postFact?_plain : f.plain.postFact? = f.postFact? := by
  unfold postFact?
  rw [requiresExprs_plain]
  simp only [plain, map_expr_plain]
  rfl

theorem definition_blind (body : Source.Expr) (layer : Layer) :
    (f.definition body layer).Blind :=
  (f.formalHyps_blind _).bind fun _ => (lowerTerms_has _ _).bind fun _ =>
    (lowerExpr_has body _).bind fun _ => (canCall_has _ body).bind fun _ => .pure _

theorem definition_plain (body : Source.Expr) (layer : Layer) :
    f.plain.definition body layer = f.definition body layer := by
  unfold definition
  rw [requiresExprs_plain]
  rfl

theorem caseDefinition_blind (n : Nat) (dt : Path) (p : Pattern) (body : Source.Expr) :
    (f.caseDefinition n dt p body).Blind :=
  (lowerExpr_has _ _).bind fun _ => (f.receiverHyps_blind _).bind fun _ =>
    (ExprM.Trait.Has.mapM fun _ _ => whereClause_has _ _ _).bind fun _ =>
    (lowerTerms_has _ _).bind fun _ => (lowerExpr_has _ _).bind fun _ =>
    (canCall_has _ _).bind fun _ => .pure _

theorem caseDefinition_plain (n : Nat) (dt : Path) (p : Pattern) (body : Source.Expr) :
    f.plain.caseDefinition n dt p body = f.caseDefinition n dt p body := by
  unfold caseDefinition
  rw [requiresExprs_plain]
  rfl

theorem frameFact_blind : f.frameFact.Blind :=
  (frameContains_has _ _ _).bind fun _ => (f.receiverHyps_blind _).bind fun _ => .pure _

theorem checkPost_steady (v : View) (limits : Limits) :
    (f.checkPost v limits).Follows J P c Eq (f.plain.checkPost v limits) := by
  refine (havoc_steady _).andThen fun _ => (ofExpr (whereClause_has _ _ _)).andThen fun _ =>
    (assume?_steady _).andThen fun _ => .bind (R := Eq) (.forM (T := fun s s' => s' = s.plain)
      (List.forall₂_map_right_iff.mpr (List.forall₂_same.mpr fun _ _ => rfl)) fun s _ hs => ?_)
      fun _ _ _ => assume_steady _
  subst hs
  exact defineAndAssume_steady v limits s.expr

theorem checkBody_follows (v : View) (limits : Limits) (body : Source.Expr) :
    (f.checkBody v limits body).Follows J (f.refinement.Spares c (inheritedGoals f.ensures)) c Eq
      (f.plain.checkBody v limits body) := by
  refine (ofExpr (definedness_has v limits body)).andThen fun _ => (addSame _).andThen fun _ =>
    (ofExpr (lowerExpr_has body v)).andThen fun _ => (assign_steady _ _).andThen fun _ => ?_
  have checked : (f.plain.ensures.filter fun s => !s.free) =
      (f.ensures.filter fun s => !s.free).map Spec.plain :=
    filter_plain (fun s => !s.free) (fun _ => rfl) f.ensures
  rw [checked]
  refine .forM (T := fun s s' => (s ∈ f.ensures ∧ s.free = false) ∧ s' = s.plain) ?_
    fun s _ hs => ?_
  · rw [List.forall₂_map_right_iff, List.forall₂_same]
    intro s hs
    obtain ⟨hs, hf⟩ := List.mem_filter.mp hs
    exact ⟨⟨hs, by simpa using hf⟩, rfl⟩
  · obtain ⟨⟨hs, hf⟩, rfl⟩ := hs
    exact Body.assertGoal_follows { refinement := f.refinement } v s.expr s.inherited _
      fun hi => mem_inheritedGoals hs hi hf

theorem checkAll_follows (v : View) :
    (f.checkAll v).Follows J (f.refinement.Spares c (inheritedGoals f.ensures)) c Eq
      (f.plain.checkAll v) := by
  unfold checkAll
  rw [requiresExprs_plain]
  refine (ofExpr (Termination.values_has v _)).andThen fun olds => ?_
  refine (forMSame fun e _ => defineAndAssume_steady v _ e).andThen fun _ =>
    (declareLocal_steady _ _).andThen fun _ => (f.checkPost_steady v _).block.bind
    fun _ _ hpost => .context ?_
  refine BodyM.Follows.bind (.block (y := f.body.forM (f.plain.checkBody v _)) ?_)
    fun _ _ hbody => .add (.single (.ifElse none hpost hbody))
  cases f.body with
  | none => exact steady ()
  | some body => exact f.checkBody_follows v _ body

variable {ms : List Inheritor}

theorem emitCheck_follows (hf : f.inheritor ∈ ms) :
    f.emitCheck.Follows (.ofMembers c ms) c Eq f.plain.emitCheck := by
  refine (DeclM.Follows.ofExpr (f.formalHyps_blind _)).andThen fun _ =>
    (DeclM.Follows.emitSame _).andThen fun _ =>
    DeclM.Follows.bind (f.checkAll_follows _) fun a b hab =>
    DeclM.Follows.takeLocals.andThen fun locals => .emit ?_
  exact .implementation ⟨_, _, _, locals, a.2⟩ (Spared.body_of_mem hf hab.2)

theorem emitDefinitions_steady (recursive : Bool) (body : Source.Expr) :
    (f.emitDefinitions recursive body).Follows J c Eq (f.plain.emitDefinitions recursive body) := by
  unfold emitDefinitions
  rw [definition_plain, definition_plain]
  refine (DeclM.Follows.ofExpr (f.definition_blind body .normal)).andThen fun _ =>
    (DeclM.Follows.emitFact _).andThen fun _ => ?_
  split
  · refine (DeclM.Follows.ofExpr (f.definition_blind body .unrolled)).andThen fun _ =>
      (DeclM.Follows.emitFact _).andThen fun _ => ?_
    rw [show f.plain.matchedParam? body = f.matchedParam? body from rfl]
    cases f.matchedParam? body with
    | none => exact .steady ()
    | some p =>
      refine .forM (T := Eq) (List.forall₂_same.mpr fun _ _ => rfl) fun arm _ harm => ?_
      subst harm
      obtain ⟨pattern, e⟩ := arm
      dsimp only
      rw [caseDefinition_plain]
      exact (DeclM.Follows.ofExpr (f.caseDefinition_blind _ _ _ _)).andThen fun _ => .emitFact _
  · exact .steady ()

theorem lower_follows (hf : f.inheritor ∈ ms) :
    f.lower.Follows (.ofMembers c ms) c Eq f.plain.lower := by
  refine DeclM.Follows.within ?_ _ _ _
  rw [postFact?_plain]
  refine (DeclM.Follows.ofExpr (.isRecursive f.name)).andThen fun recursive => ?_
  refine (DeclM.Follows.forMSame fun l _ => .emitSame _).andThen fun _ => ?_
  refine .optional ?_ fun rest => (DeclM.Follows.forMSame fun e _ => .emitFact e).andThen
    fun _ => rest
  refine (DeclM.Follows.ofExpr f.postFact?_blind).andThen fun post => ?_
  refine DeclM.Follows.andThen (x := post.forM DeclM.emitFact) ?_ fun _ => ?_
  · cases post with
    | none => exact .steady ()
    | some e => exact .emitFact e
  refine .optional ?_ fun rest => (DeclM.Follows.ofExpr f.frameFact_blind).andThen fun _ =>
    (DeclM.Follows.emitFact _).andThen fun _ => rest
  refine .optional (f.emitCheck_follows hf) fun rest => DeclM.Follows.bind (R := Eq) ?_
    fun _ _ _ => rest
  show DeclM.Follows _ c Eq (f.body.forM _) (f.body.forM _)
  cases f.body with
  | none => exact .steady ()
  | some body => exact f.emitDefinitions_steady recursive body

end Source.Function

/-! ## Methods -/

namespace Source.Method

variable (m : Method) {ms : List Inheritor}

/-- The checks that the clauses of a contract may miss: none in the procedures that are called. -/
def MaySpare (isRefined : Bool) (c : Context) (goals : List Source.Expr) (msg : Message)
    (e : IL.Expr) : Prop :=
  isRefined = true ∧ m.refinement.Spares c goals msg e

variable {goals : List Source.Expr}

theorem specClauses_follows (v : View) (note : String) (isRefined : Bool) (s : Spec)
    (h : s.inherited = true → s.free = false → s.expr ∈ goals) :
    (m.specClauses v note isRefined s).Follows J c
      (List.Forall₂ (Clause.Relaxes (m.MaySpare isRefined c goals)))
      (m.plain.specClauses v note isRefined s.plain) := by
  refine .context ?_
  dsimp only
  rw [Spec.plain_free, Spec.plain_inherited]
  have calls {ks ks' : List Clause}
      (hks : List.Forall₂ (Clause.Relaxes (m.MaySpare isRefined c goals)) ks ks') :
      (DeclM.ofExpr (canCall v s.expr) >>= fun w => pure (ks ++ [.assumed w])).Follows J c
        (List.Forall₂ (Clause.Relaxes (m.MaySpare isRefined c goals)))
        (DeclM.ofExpr (canCall v s.expr) >>= fun w => pure (ks' ++ [.assumed w])) :=
    (DeclM.Follows.ofExpr (canCall_has v s.expr)).andThen fun _ =>
      .pure (List.rel_append hks (Clause.Relaxes.refl_all _))
  cases hf : s.free with
  | true =>
    exact (DeclM.Follows.ofExpr (lowerExpr_has s.expr v)).andThen fun _ =>
      (DeclM.Follows.steady _).andThen fun _ => calls (Clause.Relaxes.refl_all _)
  | false =>
    refine DeclM.Follows.bindRuns (split_steady v s.expr true) fun parts _ hparts hrun => ?_
    subst hparts
    obtain ⟨t, t', hrun⟩ := hrun
    refine (DeclM.Follows.pure (R := List.Forall₂ (Clause.Relaxes (m.MaySpare isRefined c goals)))
      ?_).bind fun _ _ hks => calls hks
    rw [List.forall₂_map_left_iff, List.forall₂_map_right_iff, List.forall₂_same]
    intro p hp
    rw [Refinement.keepsCheck_plain, Bool.or_true, Bool.and_true]
    cases hk : p.kind.isChecked with
    | false => exact .same _
    | true =>
      rw [Bool.true_and]
      split
      · exact .same _
      · next hkeep =>
        simp only [Bool.or_eq_true, Bool.not_eq_true', not_or, Bool.not_eq_false,
          Bool.not_eq_true] at hkeep
        refine .spared ⟨hkeep.1, Refinement.spares_of_keepsCheck hkeep.2 (fun hi =>
          ⟨s.expr, h hi hf, .inl ⟨v, t, parts, t', hrun, p, hp, hk, rfl, rfl⟩⟩) rfl⟩

theorem specsClauses_follows (v : View) (note : String) (isRefined : Bool) (specs : List Spec)
    (h : ∀ goal ∈ inheritedGoals specs, goal ∈ goals) :
    (m.specsClauses v note isRefined specs).Follows J c
      (List.Forall₂ (Clause.Relaxes (m.MaySpare isRefined c goals)))
      (m.plain.specsClauses v note isRefined (specs.map Spec.plain)) := by
  refine (DeclM.Follows.mapM (T := fun s s' => s ∈ specs ∧ s' = s.plain) ?_ fun s _ hs => ?_).bind
    fun _ _ hks => .pure (List.rel_flatten hks)
  · exact List.forall₂_map_right_iff.mpr (List.forall₂_same.mpr fun s hs => ⟨hs, rfl⟩)
  · obtain ⟨hs, rfl⟩ := hs
    exact m.specClauses_follows v note isRefined s fun hi hf => h _ (mem_inheritedGoals hs hi hf)

theorem entryFacts_blind (heap : IL.Expr) : (m.entryFacts heap).Blind := by
  unfold entryFacts
  cases m.owner with
  | none =>
    exact (ExprM.Trait.Has.pure _).bind fun _ => (ExprM.Trait.Has.mapM fun _ _ =>
      whereClauseExtended_has _ _ _).bind fun _ => .pure _
  | some p =>
    exact (Heap.receiverWhere_blind _ _ _).bind fun _ => (ExprM.Trait.Has.pure _).bind fun _ =>
      (ExprM.Trait.Has.mapM fun _ _ => whereClauseExtended_has _ _ _).bind fun _ => .pure _

theorem exitFacts_blind (v : View) : (m.exitFacts v).Blind :=
  (whereClauses_has _ _).bind fun _ => (frameContains_has _ _ _).bind fun _ => .pure _

theorem emitProcedure_follows (hm : m.inheritor ∈ ms) (kind : ProcKind) :
    (m.emitProcedure kind).Follows (.ofMembers c ms) c Eq (m.plain.emitProcedure kind) := by
  have inRequires : ∀ goal ∈ inheritedGoals m.requires, goal ∈ m.inheritor.goals :=
    fun goal hg => by simp [inheritor, hg]
  have inEnsures : ∀ goal ∈ inheritedGoals m.ensures, goal ∈ m.inheritor.goals :=
    fun goal hg => by simp [inheritor, hg]
  refine (DeclM.Follows.ofExpr (m.entryFacts_blind _)).andThen fun onEntry => ?_
  refine (m.specsClauses_follows _ _ _ m.requires inRequires).bind fun pre pre' hpre => ?_
  refine (DeclM.Follows.ofExpr (m.exitFacts_blind _)).andThen fun onExit => ?_
  refine (m.specsClauses_follows _ _ _ m.ensures inEnsures).bind fun post post' hpost => .emit ?_
  have spared {ks ks' : List Clause} (before : List Clause)
      (hks : List.Forall₂ (Clause.Relaxes (m.MaySpare (kind == .impl) c m.inheritor.goals)) ks ks') :
      List.Forall₂ (Clause.Relaxes ((Spared.ofMembers c ms).clauses (Naming.proc m.name kind)))
        (before ++ ks) (before ++ ks') := by
    refine List.rel_append (Clause.Relaxes.refl_all _) (hks.imp fun _ _ h => h.mono ?_)
    rintro msg e ⟨hkind, hspares⟩
    obtain rfl : kind = .impl := by simpa using hkind
    exact ⟨m.inheritor, hm, rfl, rfl, hspares⟩
  exact .procedure ⟨_, _, _, _, _, _⟩ (spared _ hpre) (spared _ hpost)

theorem checkContract_steady (v : View) :
    (m.checkContract v).Follows J P c Eq (m.plain.checkContract v) := by
  have entry : m.plain.requires.map (·.expr) = m.requires.map (·.expr) :=
    map_expr_plain m.requires
  unfold checkContract
  rw [entry]
  refine (forMSame fun e _ => defineAndAssume_steady v _ e).andThen fun _ =>
    (havoc_steady _).andThen fun _ => (ofExpr (m.exitFacts_blind v)).andThen fun _ =>
    (forMSame fun e _ => assume_steady e).andThen fun _ =>
    (forMSame fun p _ => (havoc_steady _).andThen fun _ =>
      (ofExpr (whereClause_has _ _ _)).andThen fun _ => assume?_steady _).andThen fun _ =>
    .forM (T := fun s s' => s' = s.plain)
      (List.forall₂_map_right_iff.mpr (List.forall₂_same.mpr fun _ _ => rfl)) fun s _ hs => ?_
  subst hs
  exact defineAndAssume_steady v _ s.expr

theorem emitCheck_steady : m.emitCheck.Follows J c Eq m.plain.emitCheck := by
  refine (DeclM.Follows.ofExpr (m.entryFacts_blind _)).andThen fun _ =>
    (DeclM.Follows.emitSame _).andThen fun _ =>
    DeclM.Follows.bind (m.checkContract_steady (P := fun _ _ => False) _) fun a b hab =>
    DeclM.Follows.takeLocals.andThen fun locals => .emit ?_
  rw [hab.2.eq_of_none fun _ _ => id]
  exact .same _

theorem assumeHypothesis_steady (v : View) :
    (m.assumeHypothesis v).Follows J P c Eq (m.plain.assumeHypothesis v) := by
  have same : m.plain.assumeHypothesis v = m.assumeHypothesis v := by
    unfold assumeHypothesis
    simp only [plain, map_expr_plain]
  rw [same]
  refine (ofExpr (inductionVars_has _ _ _)).andThen fun vars => ?_
  split
  · exact (ofDecl (lemmaHypothesis_steady v _ _ vars _ _)).andThen fun _ => assume_steady _
  · exact steady ()

theorem lowerBody_follows (body : Source.Stmt) (h : body.Inherits goals) :
    (m.lowerBody body).Follows J (m.refinement.Spares c goals) c Eq
      (m.plain.lowerBody body.plain) := by
  refine (declareLocal_steady _ _).andThen fun _ => (ofExpr (frameSet_has _ _ _)).andThen fun _ =>
    (assign_steady _ _).andThen fun _ => (ofExpr (whereClauses_has _ _)).andThen fun _ =>
    (forMSame fun e _ => assume_steady e).andThen fun _ =>
    (ofExpr (Termination.values_has _ _)).andThen fun _ => (snapshot_steady _ _).andThen
    fun olds => ?_
  let b : Body :=
    { refinement := m.refinement
      termination := some ⟨m.name, olds, (Measure.ofMember m.decreases m.span m.ins).inferred,
        (Measure.ofMember m.decreases m.span m.ins).wildcard⟩
      outs := m.outs }
  have body_follows := Body.lowerStmt_follows (J := J) (c := c) (b := b) nofun
    body h (m.view (some Naming.frame))
  show BodyM.Follows J _ c Eq (if m.isLemma then _ else _) (if m.isLemma then _ else _)
  split
  · exact (m.assumeHypothesis_steady _).bind fun _ _ _ => body_follows
  · exact body_follows

theorem emitBody_follows (hm : m.inheritor ∈ ms) (body : Source.Stmt) (hbody : m.body = some body) :
    (m.emitBody body).Follows (.ofMembers c ms) c Eq (m.plain.emitBody body.plain) := by
  have inherits : body.Inherits m.inheritor.goals := by
    intro t ht goal hg
    simp [inheritor, hbody, body.inherits_inheritedGoals t ht goal hg]
  refine (m.emitProcedure_follows hm .impl).bind fun _ _ _ =>
    DeclM.Follows.bind (m.lowerBody_follows body inherits) fun a b hab =>
    DeclM.Follows.takeLocals.andThen fun locals => .emit ?_
  exact .implementation ⟨_, _, _, _, a.2⟩ (Spared.body_of_mem hm hab.2)

theorem lower_follows (hm : m.inheritor ∈ ms) :
    m.lower.Follows (.ofMembers c ms) c Eq m.plain.lower := by
  refine DeclM.Follows.within ?_ _ _ _
  refine DeclM.Follows.bind (R := Eq) (.forM (T := Eq) (List.forall₂_same.mpr fun _ _ => rfl)
    fun kind _ hkind => hkind ▸ m.emitProcedure_follows hm kind) fun _ _ _ =>
    m.emitCheck_steady.bind fun _ _ _ => ?_
  show DeclM.Follows _ c Eq (m.body.forM _) ((m.body.map Stmt.plain).forM _)
  cases hbody : m.body with
  | none => exact .steady ()
  | some body => exact m.emitBody_follows hm body hbody

end Source.Method

/-! ## Classes, datatypes and iterators -/

namespace Source.Class

variable (k : Class) {ms : List Inheritor}

theorem fieldFact?_blind (f : Field) : (k.fieldFact? f).Blind := by
  refine (ExprM.Blind.fieldHandle f).bind fun _ => (whereClause_has _ _ _).bind fun o => ?_
  cases o with
  | none => exact .pure _
  | some e => exact (ExprM.Trait.Has.dtypeIs _ _).bind fun _ => .pure _

theorem lowerHead_steady : k.lowerHead.Follows J c Eq k.plain.lowerHead := by
  refine DeclM.Follows.within ?_ _ _ _
  refine (DeclM.Follows.ofExpr (.classConst k.path)).andThen fun _ =>
    DeclM.Follows.forMSame fun f _ => (DeclM.Follows.ofExpr (k.fieldFact?_blind f)).andThen
    fun fact => ?_
  cases fact with
  | none => exact .steady ()
  | some e => exact .emitFact e

theorem lower_follows (hk : ∀ m ∈ k.inheritors, m ∈ ms) :
    k.lower.Follows (.ofMembers c ms) c Eq k.plain.lower := by
  refine k.lowerHead_steady.bind fun _ _ _ => DeclM.Follows.bind (R := Eq) ?_ fun _ _ _ => ?_
  · refine .forM (T := fun f f' => f ∈ k.functions ∧ f' = f.plain) ?_ fun f _ hf => ?_
    · exact List.forall₂_map_right_iff.mpr (List.forall₂_same.mpr fun f hf => ⟨hf, rfl⟩)
    · obtain ⟨hf, rfl⟩ := hf
      exact f.lower_follows (hk _ (List.mem_append_left _ (List.mem_map_of_mem hf)))
  · refine .forM (T := fun m m' => m ∈ k.methods ∧ m' = m.plain) ?_ fun m _ hm => ?_
    · exact List.forall₂_map_right_iff.mpr (List.forall₂_same.mpr fun m hm => ⟨hm, rfl⟩)
    · obtain ⟨hm, rfl⟩ := hm
      exact m.lower_follows (hk _ (List.mem_append_right _ (List.mem_map_of_mem hm)))

end Source.Class

theorem Source.Datatype.lower_steady (d : Datatype) : d.lower.Steady J c := by
  refine DeclM.Follows.within ?_ _ _ _
  refine (DeclM.Follows.forMSame fun k _ => .forMSame fun _ _ => .emitSame _).andThen fun _ =>
    (DeclM.Follows.forMSame fun k _ => (DeclM.Follows.emitFact _).andThen fun _ =>
      (DeclM.Follows.emitFact _).andThen fun _ => (DeclM.Follows.emitFact _).andThen fun _ =>
      (DeclM.Follows.ofExpr ((whereClauses_has _ _).bind fun _ => .pure _)).andThen fun _ =>
      .emitFact _).andThen fun _ => ?_
  exact .optional (.steady ()) fun _ => .emitFact _

namespace Source.Iterator

variable (i : Iterator) {ms : List Inheritor}

theorem entryFacts_blind (v : View) : (i.entryFacts v).Blind :=
  (Heap.receiverWhere_blind _ _ _).bind fun _ => (ExprM.Trait.Has.mapM fun _ _ =>
    whereClauseExtended_has _ _ _).bind fun _ => (lowerTerms_has _ _).bind fun _ => .pure _

theorem entryFacts_plain (v : View) : i.plain.entryFacts v = i.entryFacts v := by
  have requires : i.plain.requires.map (·.expr) = i.requires.map (·.expr) :=
    map_expr_plain i.requires
  unfold entryFacts
  rw [requires]
  rfl

theorem exitClauses_blind (v : View) : (i.exitClauses v).Blind :=
  .mapM fun _ _ => (lowerExpr_has _ v).bind fun _ => .pure _

theorem exitClauses_plain (v : View) : i.plain.exitClauses v = i.exitClauses v := by
  unfold exitClauses
  rw [insideView_plain]
  show ((i.insideView.ensures.map Spec.plain).mapM _ : ExprM (List Clause)) = _
  rw [List.mapM_map]
  rfl

theorem bodyStmts_follows (body : Source.Stmt) {goals : List Source.Expr}
    (h : body.Inherits goals) (hi : ∀ goal ∈ inheritedGoals i.insideView.yieldEnsures, goal ∈ goals) :
    (i.bodyStmts body).Follows J (Refinement.Spares {} c goals) c Eq
      (i.plain.bodyStmts body.plain) := by
  refine (declareLocal_steady _ _).andThen fun _ => (ofExpr (frameSet_has _ _ _)).andThen fun _ =>
    (assign_steady _ _).andThen fun _ => (declareLocal_steady _ _).andThen fun _ =>
    (Follows.ofDecl (.setYieldCount _)).andThen fun _ => (assign_steady _ _).andThen fun _ =>
    (forMSame fun y _ => (declareLocal_steady _ _).andThen fun _ =>
      (ofExpr (whereClause_has _ _ _)).andThen fun _ => assume?_steady _).andThen fun _ =>
    (ofExpr (Termination.values_has _ _)).andThen fun _ => (snapshot_steady _ _).andThen
    fun olds => ?_
  let b : Body :=
    { termination := some ⟨i.path, olds, (Measure.ofMember i.decreases i.span i.ins).inferred,
        (Measure.ofMember i.decreases i.span i.ins).wildcard⟩
      outs := i.yields
      iterator := some i.insideView }
  have yields : b.InheritsYields goals := by
    rintro _ ⟨⟩
    exact hi
  dsimp only
  rw [insideView_plain]
  exact Body.lowerStmt_follows (b := b) yields body h (view (some Naming.frame))

theorem lowerBody_follows (hm : i.inheritor ∈ ms) (body : Source.Stmt)
    (hbody : i.body = some body) :
    (i.lowerBody body).Follows (.ofMembers c ms) c Eq (i.plain.lowerBody body.plain) := by
  have inherits : body.Inherits i.inheritor.goals := by
    intro t ht goal hg
    simp [inheritor, hbody, body.inherits_inheritedGoals t ht goal hg]
  refine DeclM.Follows.within ?_ _ _ _
  dsimp only
  rw [entryFacts_plain, exitClauses_plain]
  refine (DeclM.Follows.ofExpr (i.entryFacts_blind _)).andThen fun _ =>
    (DeclM.Follows.ofExpr (i.exitClauses_blind _)).andThen fun _ =>
    (DeclM.Follows.emitSame _).andThen fun _ =>
    DeclM.Follows.bind (i.bodyStmts_follows body inherits fun goal hg => by simp [inheritor, hg])
    fun a b hab => DeclM.Follows.takeLocals.andThen fun locals => .emit ?_
  exact .implementation ⟨_, _, _, _, a.2⟩ (Spared.body_of_mem hm hab.2)

theorem lower_follows (hi : i.inheritor ∈ ms)
    (hc : ∀ k ∈ c.classes, ∀ m ∈ k.inheritors, m ∈ ms) :
    i.lower.Follows (.ofMembers c ms) c Eq i.plain.lower := by
  refine .context ((DeclM.Follows.ofLookup (c.cls_plain i.path)).bindRuns fun k _ hk hrun => ?_)
  subst hk
  have mem : k ∈ c.classes := by
    obtain ⟨s, s', hrun⟩ := hrun
    have found : (c.cls i.path).mapError Fault.broken = .ok k := congrArg Prod.fst hrun
    cases hfound : c.cls i.path with
    | error b => rw [hfound] at found; cases found
    | ok k' =>
      rw [hfound] at found
      exact Except.ok.inj found ▸ (Context.mem_of_orBroken hfound).1
  refine (k.lower_follows (hc k mem)).bind fun _ _ _ => ?_
  show DeclM.Follows _ c Eq (i.body.forM _) ((i.body.map Stmt.plain).forM _)
  cases hbody : i.body with
  | none => exact .steady ()
  | some body => exact i.lowerBody_follows hi body hbody

end Source.Iterator

/-! ## Programs -/

theorem lowerDecls_follows {ms : List Inheritor} (decls : List TopDecl)
    (hd : ∀ d ∈ decls, ∀ m ∈ d.inheritors, m ∈ ms)
    (hc : ∀ k ∈ c.classes, ∀ m ∈ k.inheritors, m ∈ ms) :
    (lowerDecls decls).Follows (.ofMembers c ms) c Eq
      (lowerDecls (decls.map TopDecl.plain)) := by
  have plain : List.Forall₂ (fun d d' => d ∈ decls ∧ d' = TopDecl.plain d) decls
      (decls.map TopDecl.plain) :=
    List.forall₂_map_right_iff.mpr (List.forall₂_same.mpr fun d hd => ⟨hd, rfl⟩)
  refine DeclM.Follows.bind (R := Eq) (.forM plain fun d _ h => ?_) fun _ _ _ =>
    .forM plain fun d _ h => ?_
  · obtain ⟨-, rfl⟩ := h
    cases d with
    | datatype d => exact d.lower_steady
    | cls | iterator => exact .steady ()
  · obtain ⟨h, rfl⟩ := h
    cases d with
    | datatype => exact .steady ()
    | cls k => exact k.lower_follows (hd _ h)
    | iterator i =>
      exact i.lower_follows (hd _ h _ (by simp [TopDecl.inheritors])) hc

end

/-- The checks that the members of a program leave out when it is lowered. -/
def Source.Program.spared (program : Source.Program) (options : Options) : Spared where
  clauses x msg e := ∃ c, Context.ofProgram program options = .ok c ∧
    (Spared.ofMembers c program.inheritors).clauses x msg e
  body x msg e := ∃ c, Context.ofProgram program options = .ok c ∧
    (Spared.ofMembers c program.inheritors).body x msg e

/-- Two lowered programs, of which the first leaves checks of the second out. -/
theorem lowerAfter_plain (program : Source.Program) (options : Options) (prelude : String) :
    (∃ fault, lowerAfter program options prelude = .error fault ∧
      lowerAfter program.plain options prelude = .error fault) ∨
    ∃ ds ds', lowerAfter program options prelude = .ok ds ∧
      lowerAfter program.plain options prelude = .ok ds' ∧
      List.Forall₂ (program.spared options).Relaxes ds ds' := by
  unfold lowerAfter
  rw [Context.ofProgram_plain, Context.decls_plain]
  cases Prelude.load prelude with
  | error e => exact .inl ⟨_, rfl, rfl⟩
  | ok decls =>
    cases hc : Context.ofProgram program options with
    | error m => exact .inl ⟨_, rfl, rfl⟩
    | ok c =>
      let start : Progress := { emitted := IL.ProgramBuilder.empty.extend decls }
      have members : ∀ k ∈ c.classes, ∀ m ∈ k.inheritors, m ∈ program.inheritors := by
        intro k hk m hm
        obtain ⟨d, hd, hclass⟩ := Context.mem_classes_ofProgram hc hk
        refine List.mem_flatMap.mpr ⟨d, hd, ?_⟩
        cases d with
        | cls k' =>
          cases hclass
          exact hm
        | datatype d => cases hclass
        | iterator i =>
          cases hclass
          exact List.mem_append_left _ hm
      have refl : start.Follows (.ofMembers c program.inheritors) start :=
        ⟨rfl, List.forall₂_same.mpr fun d _ => .same d⟩
      have h := lowerDecls_follows (program.flatMap (·.decls))
        (fun d hd m hm => List.mem_flatMap.mpr ⟨d, hd, hm⟩) members refl
      simp only [Except.mapError, Except.map, bind, Except.bind]
      rcases hx : lowerDecls (program.flatMap Source.Module.decls) c start with ⟨e | u, s⟩ <;>
        rcases hy : lowerDecls ((program.flatMap Source.Module.decls).map TopDecl.plain) c.plain
          start with ⟨e' | u', s'⟩ <;>
        rw [hx, hy] at h
      · exact .inl ⟨e, rfl, by rw [h.1]⟩
      · exact h.elim
      · exact h.elim
      · refine .inr ⟨s.emitted.build, s'.emitted.build, rfl, rfl, ?_⟩
        have emitted := List.rel_reverse h.2.emitted
        exact emitted.imp fun _ _ hd => hd.mono (fun _ _ _ hs => ⟨c, hc, hs⟩)
          fun _ _ _ hs => ⟨c, hc, hs⟩

/-- Where the options or every member that a procedure checks ask for another look, nothing is left
out. -/
theorem Source.Program.eq_of_reverify {program : Source.Program} {options : Options}
    {d d' : IL.Decl} (h : (program.spared options).Relaxes d d')
    (hd : options.reverifyRefined = true ∨
      ∀ m ∈ program.inheritors, d.procName? = some m.proc → m.refinement.needsReverify = true) :
    d = d' := by
  have none : ∀ x ∈ d.procName?, ∀ c, Context.ofProgram program options = .ok c →
      ∀ m ∈ program.inheritors, m.proc = x → ∀ msg e, ¬ m.refinement.Spares c m.goals msg e := by
    intro x hx c hc m hm hproc msg e hs
    rcases hd with hd | hd
    · have := hs.once
      rw [Context.options_ofProgram hc, hd] at this
      cases this
    · have := hd m hm (by rw [hproc]; exact hx)
      rw [hs.verified] at this
      cases this
  refine h.eq_of_none fun x hx msg e => ⟨?_, ?_⟩
  · rintro ⟨c, hc, m, hm, -, hproc, hs⟩
    exact none x hx c hc m hm hproc msg e hs
  · rintro ⟨c, hc, m, hm, hproc, hs⟩
    exact none x hx c hc m hm hproc msg e hs

/-- Refinement only leaves checks out. A program and the plain program, in which nothing counts as
inherited, are broken or refused alike, or they become the same declarations, with the same
statements and clauses in the same order, but for checks that the members of the program spare.
Declarations of members that are verified again are the same, and all are if the options ask for
it. -/
theorem lowerProgram_relaxes_plain (program : Source.Program) (options : Options)
    (prelude : String) :
    (∃ b, lowerProgram program options prelude = .error b ∧
      lowerProgram program.plain options prelude = .error b) ∨
    ∃ ds ds' diagnostics, lowerProgram program options prelude = .ok (ds, diagnostics) ∧
      lowerProgram program.plain options prelude = .ok (ds', diagnostics) ∧
      List.Forall₂ (program.spared options).Relaxes ds ds' ∧
      ∀ d d', (d, d') ∈ ds.zip ds' →
        (options.reverifyRefined = true ∨ ∀ m ∈ program.inheritors,
          d.procName? = some m.proc → m.refinement.needsReverify = true) → d = d' := by
  rcases lowerAfter_plain program options prelude with
    ⟨fault, h, h'⟩ | ⟨ds, ds', h, h', relaxes⟩
  · unfold lowerProgram
    rw [h, h']
    cases fault with
    | broken b => exact .inl ⟨b, rfl, rfl⟩
    | rejected m => exact .inr ⟨[], [], _, rfl, rfl, .nil, by simp⟩
  · unfold lowerProgram
    rw [h, h']
    refine .inr ⟨ds, ds', [], rfl, rfl, relaxes, fun d d' hd hv => ?_⟩
    exact Source.Program.eq_of_reverify (List.forall₂_zip relaxes hd) hv

end ContractLowering
