import ContractLowering.Proofs.Lowering.AlikeBodies
import ContractLowering.Proofs.Source.Recursor

/-!
# Compound statements and chosen triggers

Forall statements, yields, loops and branches are the same up to triggers whether or not triggers
are chosen, by induction on the statement.
-/

namespace ContractLowering

open IL Source BodyM

attribute [local simp] Boxing.ren_box Boxing.ren_unbox Boxing.ren_convert Boxing.boxRef
  Prelude.heapVar Prelude.null Prelude.read Prelude.isGoodHeap Prelude.heapSucc Heap.obj Heap.fld
  Heap.isAlloc Heap.nonNullAlloc Heap.frameCondition inFrame

/-! ## Forall statements -/

theorem havocDomain_alike (v : View) (d : Domain) :
    Alike id (havocDomain v d) (havocDomain v d) := by
  unfold havocDomain
  refine Alike.bind_id (.forM_id fun b => (declareLocal_alike _ _).bind_id fun _ => havoc_alike _)
    fun _ => (Alike.ofExpr (bindersWhere_alike v.heap d.binders)).bind fun w w' hw =>
      (assume_alike hw).bind_id fun _ => ?_
  cases d.range with
  | none => exact .pure rfl
  | some r => exact (value_alike v r).bind fun _ _ ha => assume_alike ha

theorem domainHolds_alike (v : View) (d : Domain) :
    ExprM.Alike IL.Expr.erase (domainHolds v d) (domainHolds v d) := by
  refine (bindersWhere_alike v.heap d.binders).bind fun w w' hw => ?_
  refine (lowerExpr?_alike v fun e _ => lowerExpr_alike e).bind fun r r' hr => .pure ?_
  cases r <;> cases r' <;> simp at hr <;> simp [hw, hr]

/-- The location of a forall assignment without triggers. -/
def eraseLocation (l : IL.Expr × IL.Expr × Typ) : IL.Expr × IL.Expr × Typ :=
  (l.1.erase, l.2.1.erase, l.2.2)

theorem forallLocation_alike (v : View) (lhs : Lhs) :
    DeclM.Alike eraseLocation (forallLocation v lhs) (forallLocation v lhs) := by
  cases lhs with
  | field span obj fid =>
    refine (DeclM.Alike.ofExpr (.field fid)).bind_id fun f => ?_
    refine (DeclM.Alike.ofExpr (Heap.fieldHandle_alike f)).bind_id fun h => ?_
    exact (DeclM.Alike.ofExpr (lowerExpr_alike obj v)).bind fun a a' ha =>
      .pure (by simp [eraseLocation, ha])
  | index span arr idx =>
    refine (DeclM.Alike.ofExpr (lowerExpr_alike idx v)).bind fun i i' hi => ?_
    refine (DeclM.Alike.ofExpr (lowerExpr_alike arr v)).bind fun a a' ha => ?_
    exact (DeclM.Alike.ofExpr (arrayElem_alike arr)).bind_id fun t =>
      .pure (by simp [eraseLocation, Prelude.indexField, hi, ha])
  | var | range => exact .reject _

theorem boxedValue_alike (v : View) (t : Typ) (e : Source.Expr) :
    ExprM.Alike IL.Expr.erase (boxedValue v t e) (boxedValue v t e) :=
  (lowerExpr_alike e v).bind fun _ _ ha => .pure (by simp [ha])

theorem assertInjective_alike (v : View) (span : Span) (d : Domain) (lhs : Lhs)
    (e : Source.Expr) :
    Alike id (assertInjective v span d lhs e) (assertInjective v span d lhs e) := by
  refine (Alike.ofDecl .freshId).bind_id fun n => ?_
  refine (Alike.ofDecl (forallLocation_alike v lhs)).bind fun l l' hl => ?_
  refine (Alike.ofDecl (forallLocation_alike v _)).bind fun m m' hm => ?_
  obtain ⟨o, f, t⟩ := l
  obtain ⟨o', f', t'⟩ := l'
  obtain ⟨ho, hf, rfl⟩ : o.erase = o'.erase ∧ f.erase = f'.erase ∧ t = t' := by
    simpa [eraseLocation] using hl
  obtain ⟨p, g, u⟩ := m
  obtain ⟨p', g', u'⟩ := m'
  obtain ⟨hp, hg, -⟩ : p.erase = p'.erase ∧ g.erase = g'.erase ∧ u = u' := by
    simpa [eraseLocation] using hm
  refine (Alike.ofExpr (boxedValue_alike v t e)).bind fun x x' hx => ?_
  refine (Alike.ofExpr (boxedValue_alike v t _)).bind fun y y' hy => ?_
  refine (Alike.ofExpr (domainHolds_alike v _)).bind fun w w' hw => ?_
  refine (Alike.ofExpr (allAuto_alike _ ?_)).bind fun _ _ ha => assert_alike _ ha
  simp [ho, hf, hp, hg, hx, hy, hw]

theorem assignForall_alike (v : View) (d : Domain) (lhs : Lhs) (e : Source.Expr) :
    Alike id (assignForall v d lhs e) (assignForall v d lhs e) := by
  refine havocHeap_alike.bind_id fun prev => ?_
  refine (Alike.ofDecl (forallLocation_alike _ lhs)).bind fun l l' hl => ?_
  obtain ⟨o, f, t⟩ := l
  obtain ⟨o', f', t'⟩ := l'
  obtain ⟨ho, hf, rfl⟩ : o.erase = o'.erase ∧ f.erase = f'.erase ∧ t = t' := by
    simpa [eraseLocation] using hl
  refine (Alike.ofExpr (boxedValue_alike _ t e)).bind fun x x' hx => ?_
  refine (Alike.ofExpr (domainHolds_alike _ d)).bind fun w w' hw => ?_
  refine (Alike.ofExpr (allAuto_alike _ ?_)).bind fun a a' ha => (assume_alike ha).bind_id fun _ =>
    assume_alike ?_
  · simp [ho, hf, hx, hw]
  · simp [ho, hf, hw]

theorem forallChoice_alike (v : View) (d : Domain) {check check' effect effect' : BodyM Unit}
    (hc : Alike id check check') (he : Alike id effect effect') :
    Alike id (forallChoice v d check effect) (forallChoice v d check' effect') :=
  (Alike.block ((havocDomain_alike v d).bind_id fun _ => hc)).bind fun ss ss' hss =>
    he.block.bind fun ts ts' hts => .add (by simp [hss, hts])

theorem assumeForall_alike (v : View) (d : Domain) {facts facts' : List IL.Expr}
    (hf : facts.map IL.Expr.erase = facts'.map IL.Expr.erase) :
    Alike id (assumeForall v d facts) (assumeForall v d facts') :=
  (Alike.ofExpr (domainHolds_alike v d)).bind fun w w' hw =>
    (Alike.ofExpr (allAuto_alike _ (by simp [hw, hf]))).bind fun _ _ ha => assume_alike ha

theorem forallEnsures_alike (v : View) (d : Domain) (callee : Method)
    (receiver : Option Source.Expr) (args : List Source.Expr) :
    Alike id (forallEnsures v d callee receiver args) (forallEnsures v d callee receiver args) :=
  (Alike.ofExpr (lowerTerms_alike _ fun e _ => lowerExpr_alike e)).bind fun _ _ hf =>
    assumeForall_alike v d hf

/-! ## Yields -/

theorem extendHistory_alike (v : View) (i : Iterator) (y : Source.Binder) :
    Alike id (extendHistory v i y) (extendHistory v i y) :=
  (Alike.ofExpr (.field _)).bind_id fun f => (Alike.ofExpr (Heap.fieldHandle_alike f)).bind_id
    fun _ => updateHeap_alike _ _ rfl

theorem Body.lowerYield_alike (b : Body) (v : View) (span : Span)
    (values : Option (List Source.Expr)) :
    Alike id (b.lowerYield v span values) (b.lowerYield v span values) := by
  refine .bind_state fun s s' hs => ?_
  rw [hs]
  split
  · next i count _ _ =>
    refine (Alike.forM_option fun es => b.assignOuts_alike v es).bind_id fun _ => ?_
    refine (Alike.forM_id fun y => extendHistory_alike v i y).bind_id fun _ => ?_
    refine (assign_alike count rfl).bind_id fun _ => ?_
    refine (b.establish_alike v _ _).bind_id fun _ => havocHeap_alike.bind_id fun prev => ?_
    refine (Alike.ofExpr (frameContains_alike v i.reads rfl)).bind fun a a' ha => ?_
    refine (assume_alike (by simp [ha])).bind_id fun _ => .forM_id fun s => ?_
    exact (Alike.ofExpr (lowerExpr_alike s.expr v)).bind fun _ _ ha => assume_alike ha
  · exact .ofDecl (.reject _)

/-! ## Loops -/

namespace LoopFrame

/-- The loop without triggers. -/
def erase (l : LoopFrame) : LoopFrame :=
  { l with
    current := l.current.map MeasureValue.erase
    invariants := l.invariants.map Clause.erase
    wellFormed := l.wellFormed.map Stmt.erase }

/-- Loops that differ in triggers have the same number and view. -/
theorem number_view_eq {l l' : LoopFrame} (hl : l.erase = l'.erase) :
    l.number = l'.number ∧ l.view = l'.view :=
  ⟨(LoopFrame.mk.inj hl).1, (LoopFrame.mk.inj hl).2.1⟩

theorem enterView_alike (v : View) (span : Span) (n : Nat) (mods : Option (List Source.Expr)) :
    Alike id (enterView v span n mods) (enterView v span n mods) := by
  cases mods with
  | none => exact .pure rfl
  | some mods =>
    refine (Alike.forM_id (define_alike v)).bind_id fun _ => ?_
    refine (Alike.ofExpr (frameContains_alike v mods rfl)).bind fun a a' ha => ?_
    refine (assert_alike _ (frameIncludes_erase v ha)).bind_id fun _ => ?_
    refine (declareLocal_alike _ _).bind_id fun _ => ?_
    refine (Alike.ofExpr (frameSet_alike v mods _)).bind fun b b' hb => ?_
    exact (assign_alike _ hb).bind_id fun _ => .pure rfl

theorem invariant_alike (b : Body) (v : View) (witness : IL.Expr) (inv : Spec) :
    DeclM.Alike (Prod.map (List.map Clause.erase) (List.map Stmt.erase))
      (invariant b v witness inv) (invariant b v witness inv) := by
  refine .bind_context fun c => ?_
  refine (DeclM.Alike.ofExpr (lowerExpr_alike inv.expr v)).bind fun a a' ha => ?_
  refine (DeclM.Alike.ofExpr (canCall_alike v inv.expr)).bind fun w w' hw => ?_
  refine (DeclM.Alike.ofExpr (definedness_alike v rfl inv.expr)).bind fun ss ss' hss => .pure ?_
  simp only [Prod.map_apply, List.map_cons, List.map_nil, List.map_append, apply_ite Clause.erase,
    Clause.erase_checked, Clause.erase_assumed, hss]
  simp [ha, hw, Context.hinted]

theorem kept_alike (v : View) (preHeap : IL.Expr) (assigned : List Source.Binder) :
    DeclM.Alike (List.map Clause.erase) (kept v preHeap assigned) (kept v preHeap assigned) := by
  refine (DeclM.Alike.mapM fun b _ => .ofExpr (whereClause_alike b.2 rfl rfl)).bind
    fun ws ws' hws => .pure ?_
  have assumed (es : List IL.Expr) :
      (es.map Clause.assumed).map Clause.erase = (es.map IL.Expr.erase).map Clause.assumed := by
    simp
  rw [List.map_append, List.map_append, assumed, assumed, map_erase_filterMap hws]

theorem enter_alike (b : Body) (v : View) (span : Span) (spec : LoopSpec)
    (guard : Option Source.Expr) (bodies : List Source.Stmt) :
    Alike erase (enter b v span spec guard bodies) (enter b v span spec guard bodies) := by
  refine (Alike.ofDecl .freshId).bind_id fun n => (storeIn_alike _ _ rfl).bind_id fun preHeap => ?_
  refine (enterView_alike v span n spec.modifies).bind_id fun view => ?_
  refine .bind_state fun s s' hs => ?_
  rw [hs]
  refine (Alike.ofExpr (Termination.values_alike view _)).bind fun cur cur' hcur => ?_
  refine (snapshot_alike _ hcur).bind_id fun inits => ?_
  refine (declareLocal_alike _ _).bind_id fun _ => (havoc_alike _).bind_id fun _ => ?_
  refine (Alike.mapM_id fun inv => .ofDecl (invariant_alike b view _ inv)).bind
    fun invs invs' hinvs => ?_
  refine (Alike.ofDecl (kept_alike view preHeap _)).bind fun keeps keeps' hkeeps => ?_
  refine (Alike.ofExpr (definednessOfAll_alike view {} _)).bind fun ms ms' hms => .pure ?_
  have fsts : (invs.flatMap (·.1)).map Clause.erase = (invs'.flatMap (·.1)).map Clause.erase := by
    have := congrArg (List.flatMap Prod.fst) hinvs
    simpa [List.flatMap_map, List.map_flatMap] using this
  have snds : (invs.flatMap (·.2)).map Stmt.erase = (invs'.flatMap (·.2)).map Stmt.erase := by
    have := congrArg (List.flatMap Prod.snd) hinvs
    simpa [List.flatMap_map, List.map_flatMap] using this
  have descent : (Clause.assumed (Termination.decreases true inits cur)).erase =
      (Clause.assumed (Termination.decreases true inits cur')).erase := by
    rw [Clause.erase_assumed, Clause.erase_assumed, Termination.erase_decreases,
      Termination.erase_decreases, hcur]
  simp only [erase, List.map_append, apply_ite (List.map Clause.erase), List.map_cons,
    List.map_nil, descent, fsts, hkeeps, hcur, Stmt.erase_ifElse, snds, hms]

theorem assertDescent_alike {l l' : LoopFrame} (hl : l.erase = l'.erase) (span : Span)
    (spec : LoopSpec) (olds : List MeasureValue) :
    Alike id (l.assertDescent span spec olds) (l'.assertDescent span spec olds) := by
  obtain ⟨number, view, measure, current, invariants, wellFormed⟩ := l
  obtain ⟨number', view', measure', current', invariants', wellFormed'⟩ := l'
  simp only [erase, mk.injEq] at hl
  obtain ⟨rfl, rfl, rfl, -⟩ := hl
  unfold assertDescent
  dsimp only
  split
  · exact .pure rfl
  split
  · exact assert_alike _ rfl
  refine (Alike.ofExpr (Termination.values_alike _ _)).bind fun news news' hnews =>
    assert_alike _ ?_
  have check (news : List MeasureValue) : (Termination.loopCheck measure olds news).erase =
      Termination.loopCheck measure (olds.map MeasureValue.erase)
        (news.map MeasureValue.erase) := by
    unfold Termination.loopCheck
    rw [← Termination.map_erase_bounded?, ← Termination.erase_decreases]
    cases Termination.bounded? olds news with
    | none => rfl
    | some b =>
      dsimp only [Option.map_some]
      split <;> simp
  rw [check, check, hnews]

theorem close_alike {l l' : LoopFrame} (hl : l.erase = l'.erase) (span : Span) (spec : LoopSpec)
    {x y : BodyM (List MeasureValue)} (hx : Alike id x y) :
    Alike id (l.close span spec x) (l'.close span spec y) := by
  refine (Alike.block (hx.bind_id fun olds => assertDescent_alike hl span spec olds)).bind
    fun body body' hbody => ?_
  have loop : (IL.Stmt.loop none l.invariants (l.wellFormed ++ body)).erase =
      (IL.Stmt.loop none l'.invariants (l'.wellFormed ++ body')).erase := by
    have hinv : l.invariants.map Clause.erase = l'.invariants.map Clause.erase :=
      congrArg invariants hl
    have hwf : l.wellFormed.map Stmt.erase = l'.wellFormed.map Stmt.erase :=
      congrArg wellFormed hl
    simp [hinv, hwf, hbody]
  dsimp only
  split
  · exact .add (by simpa using loop)
  · exact .add (by simpa using loop)

theorem snapshot_alike {l l' : LoopFrame} (hl : l.erase = l'.erase) :
    Alike id l.snapshot l'.snapshot := by
  have hcurrent : l.current.map MeasureValue.erase = l'.current.map MeasureValue.erase :=
    congrArg current hl
  unfold snapshot
  rw [(number_view_eq hl).1]
  exact BodyM.snapshot_alike _ hcurrent

theorem leaveUnless_alike {l l' : LoopFrame} (hview : l.view = l'.view)
    (guard : Option Source.Expr) : Alike id (l.leaveUnless guard) (l'.leaveUnless guard) := by
  cases guard with
  | none => exact .add rfl
  | some g =>
    unfold leaveUnless
    rw [hview]
    exact (value_alike l'.view g).bind fun x x' hx => .add (by simp [hx])

end LoopFrame

/-! ## Statements -/

theorem lowerVarDecl_alike (v : View) (x : String) (t : Typ) (rhs : Option Rhs) :
    Alike id (lowerVarDecl v x t rhs) (lowerVarDecl v x t rhs) := by
  refine (declareLocal_alike x _).bind_id fun _ => ?_
  cases rhs with
  | none =>
    exact (havoc_alike x).bind_id fun _ => (Alike.ofExpr (whereClause_alike t rfl rfl)).bind
      fun _ _ ho => assume?_alike ho
  | some r => exact (evalRhs_alike v t r).bind fun _ _ ha => assign_alike x ha

theorem bindPattern_alike (d : Datatype) (dt : Path) (p : Pattern) (s : IL.Expr) :
    Alike id (bindPattern d dt p s) (bindPattern d dt p s) := by
  refine (Alike.ofExpr (caseBindings_alike d dt p rfl)).bind fun bs bs' hbs => ?_
  have hzip : (p.binders.zip bs).map (Prod.map id (Prod.map id IL.Expr.erase)) =
      (p.binders.zip bs').map (Prod.map id (Prod.map id IL.Expr.erase)) := by
    rw [← List.zip_map_right, ← List.zip_map_right]
    exact congrArg _ hbs
  refine .forM hzip fun q q' hq => ?_
  obtain ⟨b, x, a⟩ := q
  obtain ⟨b', x', a'⟩ := q'
  obtain ⟨rfl, rfl, ha⟩ : b = b' ∧ x = x' ∧ a.erase = a'.erase := by simpa using hq
  exact (declareLocal_alike x _).bind_id fun _ => assign_alike x ha

/-- A branch without triggers. -/
def eraseBranch (b : Option IL.Expr × List IL.Stmt) : Option IL.Expr × List IL.Stmt :=
  (b.1.map IL.Expr.erase, b.2.map Stmt.erase)

theorem map_erase_cascade (bs : List (Option IL.Expr × List IL.Stmt)) :
    (cascade bs).map Stmt.erase = cascade (bs.map eraseBranch) := by
  fun_induction cascade bs with
  | case1 => rfl
  | case2 => rfl
  | case3 test arm rest hrest ih =>
    cases rest with
    | nil => exact (hrest rfl).elim
    | cons b bs => simp [cascade, ih, eraseBranch]

theorem map_erase_freeChoice (arms : List (List IL.Stmt)) :
    (freeChoice arms).map Stmt.erase = freeChoice (arms.map (List.map Stmt.erase)) := by
  simp [freeChoice, map_erase_cascade, eraseBranch, Function.comp_def]

/-- An alternative without triggers. -/
def eraseAlternative (a : IL.Expr × List IL.Stmt) : IL.Expr × List IL.Stmt :=
  (a.1.erase, a.2.map Stmt.erase)

theorem map_erase_alternativesChoice (alts : List (IL.Expr × List IL.Stmt))
    (otherwise : List IL.Stmt) :
    (alternativesChoice alts otherwise).map Stmt.erase =
      alternativesChoice (alts.map eraseAlternative) (otherwise.map Stmt.erase) := by
  simp [alternativesChoice, map_erase_freeChoice, eraseAlternative, Function.comp_def]

/-- A checked step of a calculation without triggers. -/
def eraseStep (s : List IL.Stmt × IL.Expr) : List IL.Stmt × IL.Expr :=
  (s.1.map Stmt.erase, s.2.erase)

theorem map_erase_calculation (opening : List IL.Stmt) (checked : List (List IL.Stmt × IL.Expr))
    (calls : List IL.Expr) :
    (freeChoice ((opening :: checked.map (·.1)).map (fun arm => arm ++ [IL.Stmt.assume .ff]) ++
        [calls.map IL.Stmt.assume ++ [.assume (.conj (checked.map (·.2)))]])).map Stmt.erase =
      freeChoice ((opening.map Stmt.erase :: (checked.map eraseStep).map (·.1)).map
          (fun arm => arm ++ [IL.Stmt.assume .ff]) ++
        [(calls.map IL.Expr.erase).map IL.Stmt.assume ++
          [.assume (.conj ((checked.map eraseStep).map (·.2)))]]) := by
  simp [map_erase_freeChoice, eraseStep, Function.comp_def]

namespace Body

/-- A statement is lowered to the same up to triggers whether or not triggers are chosen. -/
def LowersAlike (b : Body) (s : Source.Stmt) : Prop :=
  ∀ v : View, Alike id (b.lowerStmt v s) (b.lowerStmt v s)

variable {b : Body}

theorem lowerStmt?_alike (v : View) {o : Option Source.Stmt} (h : ∀ s ∈ o, b.LowersAlike s) :
    Alike id (b.lowerStmt? v o) (b.lowerStmt? v o) := by
  cases o with
  | none => exact .pure rfl
  | some s => exact h s rfl v

theorem lowerStmts_alike (v : View) {ss : List Source.Stmt} (h : ∀ s ∈ ss, b.LowersAlike s) :
    Alike id (b.lowerStmts v ss) (b.lowerStmts v ss) := by
  induction ss with
  | nil => exact .pure rfl
  | cons s ss ih =>
    exact (h s (by simp) v).bind_id fun _ => ih fun s hs => h s (by simp [hs])

theorem lowerAlternatives_alike (v : View) {before before' : List IL.Stmt}
    (hb : before.map Stmt.erase = before'.map Stmt.erase)
    {alts : List (Source.Expr × Source.Stmt)} (h : ∀ a ∈ alts, b.LowersAlike a.2) :
    Alike (List.map eraseAlternative) (b.lowerAlternatives v before alts)
      (b.lowerAlternatives v before' alts) := by
  induction alts with
  | nil => exact .pure rfl
  | cons a alts ih =>
    refine (Alike.ofExpr (lowerExpr_alike a.1 v)).bind fun g g' hg => ?_
    refine (h a (by simp) v).block.bind fun ss ss' hss => ?_
    refine (ih fun a ha => h a (by simp [ha])).bind fun rest rest' hrest => .pure ?_
    simp [eraseAlternative, hg, hb, hss, hrest]

theorem lowerSteps_alike (v : View) (prev : Source.Expr)
    {steps : List ((CalcOp × Source.Expr) × Option Source.Stmt)}
    (h : ∀ a ∈ steps, ∀ s ∈ a.2, b.LowersAlike s) :
    Alike (List.map eraseStep) (b.lowerSteps v prev steps) (b.lowerSteps v prev steps) := by
  induction steps generalizing prev with
  | nil => exact .pure rfl
  | cons a steps ih =>
    obtain ⟨⟨op, line⟩, hint⟩ := a
    refine Alike.bind (Alike.block ?_) fun ss ss' hss => ?_
    · refine (Alike.ofExpr (canCall_alike v prev)).bind fun w w' hw => ?_
      refine (assume_alike hw).bind_id fun _ => (define_alike v line).bind_id fun _ => ?_
      refine (lowerStmt?_alike v (h ((op, line), hint) (by simp))).bind_id fun _ => ?_
      exact b.assertGoal_alike v _ _ _
    refine (Alike.ofExpr (lowerExpr_alike _ v)).bind fun a a' ha => ?_
    refine (ih line fun a ha => h a (by simp [ha])).bind fun rest rest' hrest => .pure ?_
    simp [eraseStep, hss, ha, hrest]

theorem lowerStmt_alike (s : Source.Stmt) : b.LowersAlike s := by
  induction s using Source.Stmt.recData with
  | block span body ih => exact fun v => lowerStmts_alike v ih
  | varDecl span x t rhs => exact fun v => lowerVarDecl_alike v x t rhs
  | assign span lhss rhss => exact fun v => lowerAssign_alike v span lhss rhss
  | call span m receiver args outs => exact fun v => b.lowerCall_alike v span m receiver args outs
  | ifElse span guard thn els iht ihe =>
    intro v
    unfold lowerStmt
    have branches {g g' : Option IL.Expr} (hg : g.map IL.Expr.erase = g'.map IL.Expr.erase) :
        Alike id
          ((b.lowerStmt v thn).block >>= fun ss => (b.lowerStmt? v els).block >>= fun ts =>
            add [.ifElse g ss ts])
          ((b.lowerStmt v thn).block >>= fun ss => (b.lowerStmt? v els).block >>= fun ts =>
            add [.ifElse g' ss ts]) :=
      (iht v).block.bind fun ss ss' hss => (lowerStmt?_alike v ihe).block.bind fun ts ts' hts =>
        .add (by simp [hg, hss, hts])
    cases guard with
    | none => exact (Alike.pure rfl).bind_id fun _ => branches rfl
    | some e =>
      refine (value_alike v e).bind fun x x' hx => ?_
      rw [pure_bind, pure_bind]
      exact branches (by simp [hx])
  | altIf span alts ih =>
    intro v
    refine (Alike.forM_id (define_alike v)).bind_id fun _ => ?_
    refine (Alike.ofExpr (lowerTerms_alike v fun e _ => lowerExpr_alike e)).bind fun gs gs' hgs => ?_
    refine (assert_alike _ (by simp [hgs])).bind_id fun _ => ?_
    refine (lowerAlternatives_alike v rfl ih).bind fun arms arms' harms => .add ?_
    rw [map_erase_alternativesChoice, map_erase_alternativesChoice, harms]
  | loop span spec guard body ih =>
    intro v
    refine (LoopFrame.enter_alike b v span spec guard _).bind fun l l' hl => ?_
    have hview := (LoopFrame.number_view_eq hl).2
    refine LoopFrame.close_alike hl span spec ?_
    refine (LoopFrame.leaveUnless_alike hview guard).bind_id fun _ => ?_
    refine (LoopFrame.snapshot_alike hl).bind_id fun olds => ?_
    rw [hview]
    exact (lowerStmt?_alike l'.view ih).bind_id fun _ => .pure rfl
  | altLoop span spec alts body ih _ =>
    intro v
    refine (LoopFrame.enter_alike b v span spec none _).bind fun l l' hl => ?_
    have hview := (LoopFrame.number_view_eq hl).2
    refine LoopFrame.close_alike hl span spec ?_
    rw [hview]
    refine (Alike.forM_id (define_alike l'.view)).bind_id fun _ => ?_
    refine (LoopFrame.snapshot_alike hl).inside.bind fun p p' hp => ?_
    obtain ⟨olds, before⟩ := p
    obtain ⟨olds', before'⟩ := p'
    obtain ⟨rfl, hbefore⟩ := Prod.mk.inj hp
    refine (lowerAlternatives_alike l'.view hbefore ih).bind fun arms arms' harms => ?_
    refine (Alike.add ?_).bind_id fun _ => .pure rfl
    rw [map_erase_alternativesChoice, map_erase_alternativesChoice, harms]
  | cases span e arms ih =>
    intro v
    refine (define_alike v e).bind_id fun _ => ?_
    refine (Alike.ofExpr (matchedDatatype_alike e.typ)).bind_id fun dt => ?_
    refine (Alike.ofExpr (.datatype dt)).bind_id fun d => ?_
    refine (Alike.ofExpr (lowerExpr_alike e v)).bind fun a a' ha => ?_
    refine (temp_alike _ ha).bind_id fun s => ?_
    refine (Alike.mapM_id (k := eraseBranch) fun c => ?_).bind fun bs bs' hbs => .add ?_
    · rw [lowerArms_eq, List.find?_map]
      dsimp only
      cases hfind : arms.find? (_ ∘ fun a => (a.1, b.lowerStmt v a.2)) with
      | none => exact (Alike.pure rfl).bind_id fun _ => .pure rfl
      | some arm =>
        refine Alike.bind (.block ((bindPattern_alike d dt arm.1 s).bind_id fun _ => ?_))
          fun ss ss' hss => .pure (by simp [eraseBranch, hss])
        exact ih arm (List.mem_of_find?_eq_some hfind) v
    · rw [map_erase_cascade, map_erase_cascade, hbs]
  | calculation span first steps ih =>
    intro v
    refine (define_alike v first).block.bind fun ss ss' hss => ?_
    refine (lowerSteps_alike v first ih).bind fun cs cs' hcs => ?_
    refine (Alike.ofExpr (.mapM fun e _ => canCall_alike v e)).bind fun ws ws' hws => .add ?_
    rw [map_erase_calculation, map_erase_calculation, hss, hcs, hws]
  | forallAssign span d lhs e =>
    intro v
    refine forallChoice_alike v d ?_ (assignForall_alike v d lhs e)
    refine (Target.ofLhs_alike v lhs).bind_id fun target => ?_
    exact (evalRhs_alike v target.typ (.expr e)).bind fun _ _ _ =>
      assertInjective_alike v span d lhs e
  | forallCall span d m receiver args =>
    intro v
    refine Alike.bind (Alike.inside (h := id) ?_) fun p p' hp => ?_
    · refine (havocDomain_alike v d).bind_id fun _ => .bind_context fun c => ?_
      refine (Alike.ofExpr (.ofExcept (h := id) _)).bind_id fun callee => ?_
      dsimp only
      split
      · exact .ofDecl (.reject _)
      · exact (b.lowerCall_alike v span m receiver args []).bind_id fun _ => .pure rfl
    obtain ⟨callee, checked⟩ := p
    obtain ⟨callee', checked'⟩ := p'
    obtain ⟨rfl, hchecked⟩ := Prod.mk.inj hp
    exact (forallEnsures_alike v d callee receiver args).block.bind fun ss ss' hss =>
      .add (by simp [hchecked, hss])
  | forallProof span d ensures body ih =>
    intro v
    refine forallChoice_alike v d ((ih v).bind_id fun _ => b.establish_alike v _ ensures) ?_
    exact (Alike.ofExpr (lowerTerms_alike v fun e _ => lowerExpr_alike e)).bind fun _ _ hf =>
      assumeForall_alike v d hf
  | assert span e inherited =>
    exact fun v => (define_alike v e).bind_id fun _ => b.assertGoal_alike v e inherited _
  | assume span e => exact fun v => (value_alike v e).bind fun _ _ ha => assume_alike ha
  | ret span values =>
    exact fun v => (Alike.forM_option fun es => b.assignOuts_alike v es).bind_id fun _ => .add rfl
  | yield span values => exact fun v => b.lowerYield_alike v span values
  | leave span label => exact fun v => .add rfl

end Body

end ContractLowering
