import ContractLowering.Proofs.Lowering.Fragments
import ContractLowering.Proofs.Lowering.Writing

/-!
# The layout of whole statements

A layout with control flow holds of code without it that writes some variables, and of every
statement with control flow whose parts it holds of. The code of a statement has such a layout if
the code of its yields has (`lowerStmt_lays`), so a property of code is shown for statements by
looking at the steps they are made of and at yields.
-/

namespace ContractLowering

open IL Source BodyM

/-! ## Variables that statements write -/

namespace Source

/-- The variable that a target is, if it is one. -/
def Lhs.var? : Lhs → Option String
  | .var _ x _ => some x
  | .field .. | .index .. | .range .. => none

theorem Lhs.within_of_var? {N : String → Prop} {lhs : Lhs} (h : ∀ x ∈ lhs.var?, N x) :
    lhs.Within N := by
  cases lhs with
  | var span x t => exact h x rfl
  | _ => trivial

/-- The variables that a statement by itself declares, assigns or binds. -/
def Stmt.ownVars : Stmt → List String
  | .varDecl _ x _ _ => [x]
  | .assign _ lhss _ | .call _ _ _ _ lhss => lhss.filterMap Lhs.var?
  | .cases _ _ arms => arms.flatMap fun a => a.1.binders.map (·.1)
  | .forallAssign _ d lhs _ => d.binders.map (·.1) ++ lhs.var?.toList
  | .forallCall _ d .. | .forallProof _ d .. => d.binders.map (·.1)
  | _ => []

/-- The variables that a statement declares, assigns or binds somewhere inside. -/
def Stmt.vars (s : Stmt) : List String := s.substmts.flatMap Stmt.ownVars

namespace Stmt

variable {N : String → Prop} {s t : Stmt}

/-- A statement that writes only some variables. -/
def Keeps (N : String → Prop) (s : Stmt) : Prop := ∀ t ∈ s.substmts, ∀ x ∈ t.ownVars, N x

theorem keeps_iff : s.Keeps N ↔ ∀ x ∈ s.vars, N x := by
  simp only [Keeps, vars, List.mem_flatMap]
  exact ⟨fun h x ⟨t, ht, hx⟩ => h t ht x hx, fun h t ht x hx => h x ⟨t, ht, hx⟩⟩

theorem Keeps.own (h : s.Keeps N) {x : String} (hx : x ∈ s.ownVars) : N x :=
  h s s.mem_substmts_self x hx

theorem Keeps.part (h : s.Keeps N) (ht : ∀ u ∈ t.substmts, u ∈ s.substmts) : t.Keeps N :=
  fun u hu => h u (ht u hu)

end Stmt

end Source

/-! ## Layouts with control flow -/

/-- A layout of code with control flow that writes some variables in its steps. -/
structure Layout.Flow (L : Layout) (N : String → Prop) : Prop where
  own : WritesOwn N
  steps : ∀ {ss : List IL.Stmt}, (Layout.writing N).Holds ss → L.Holds ss
  call : ∀ p args outs, L.Holds [.call p args outs]
  leave : ∀ label, L.Holds [.leave label]
  ret : L.Holds [.ret]
  ifElse : ∀ {g a b}, L.Holds a → L.Holds b → L.Holds [.ifElse g a b]
  loop : ∀ {g ks body}, L.Holds body → L.Holds [.loop g ks body]
  block : ∀ {label body}, L.Holds body → L.Holds [.block label body]

theorem Layout.flatMap (L : Layout) {α : Type} {f : α → List IL.Stmt} {l : List α}
    (h : ∀ a ∈ l, L.Holds (f a)) : L.Holds (l.flatMap f) := by
  induction l with
  | nil => exact L.nil
  | cons a l ih =>
    obtain ⟨ha, hl⟩ := List.forall_mem_cons.1 h
    exact L.append ha (ih hl)

namespace Layout.Flow

variable {α : Type} {c : Context} {L : Layout} {N : String → Prop} (hL : L.Flow N)
include hL

/-- What is laid out without control flow is laid out. -/
theorem lift {V : α → Prop} {x : BodyM α} (h : x.Lays c (.writing N) V) : x.Lays c L V :=
  h.mono (fun _ _ => trivial) (fun _ => hL.steps) fun _ => id

theorem conditions {ss : List IL.Stmt} (h : ∀ t ∈ ss, t.isCondition = true) : L.Holds ss :=
  hL.steps (Writing.conditions h)

theorem cons {t : IL.Stmt} {ss : List IL.Stmt} (ht : t.isCondition = true) (h : L.Holds ss) :
    L.Holds (t :: ss) :=
  L.append (hL.conditions (List.forall_mem_singleton.2 ht)) h

theorem cascade {branches : List (Option IL.Expr × List IL.Stmt)}
    (h : ∀ b ∈ branches, L.Holds b.2) : L.Holds (cascade branches) := by
  induction branches with
  | nil => exact L.nil
  | cons b rest ih =>
    obtain ⟨hb, hrest⟩ := List.forall_mem_cons.1 h
    cases rest with
    | nil => exact hb
    | cons => exact hL.ifElse hb (ih hrest)

theorem freeChoice {arms : List (List IL.Stmt)} (h : ∀ arm ∈ arms, L.Holds arm) :
    L.Holds (freeChoice arms) :=
  hL.cascade (by simpa using h)

theorem alternativesChoice {alts : List (IL.Expr × List IL.Stmt)} {otherwise : List IL.Stmt}
    (h : ∀ a ∈ alts, L.Holds a.2) (ho : L.Holds otherwise) :
    L.Holds (alternativesChoice alts otherwise) := by
  refine hL.freeChoice fun arm harm => ?_
  rcases List.mem_append.1 harm with harm | harm
  · obtain ⟨a, ha, rfl⟩ := List.mem_map.1 harm
    exact hL.cons rfl (h a ha)
  · obtain rfl := List.mem_singleton.1 harm
    exact hL.cons rfl ho

/-! ## Calls and loops -/

theorem lowerCall (b : Body) (v : View) (span : Span) (m : Path) (receiver : Option Source.Expr)
    (args : List Source.Expr) {outs : List Lhs} (houts : ∀ l ∈ outs, l.Within N) :
    (b.lowerCall v span m receiver args outs).Lays c L fun _ => True := by
  rw [Body.lowerCall_eq]
  refine (Lays.ofDecl .context).andThen fun _ => (Lays.ofExpr _).andThen fun callee =>
    (Lays.mapM fun l hl => hL.lift (Writing.ofLhs hL.own v (houts l hl))).bind
    fun targets htargets => ?_
  refine (hL.lift (Writing.passThis hL.own v callee receiver)).andThen fun recv =>
    (hL.lift (Writing.passArgs hL.own v _ args)).andThen fun rest =>
    (hL.lift (Writing.assertModifies v span callee _)).andThen fun _ =>
    (hL.lift (Writing.assertDescends b v span m callee _)).andThen fun _ => ?_
  refine (Lays.ofExpr (callKind m)).andThen fun kind =>
    (Lays.ofDecl (resultLocals_grows _)).andThen fun results =>
    (Lays.add (hL.call _ _ _)).andThen fun _ => .forM fun p hp => ?_
  exact hL.lift (Writing.store hL.own (htargets _ (List.of_mem_zip (List.of_mem_zip hp).1).1) _)

/-- What an entered loop keeps of the view and adds to the code. -/
def Entered (L : Layout) (v : View) (l : LoopFrame) : Prop :=
  (∃ frame, l.view = { v with frame }) ∧ L.Holds l.wellFormed

theorem invariant (b : Body) (v : View) (witness : IL.Expr) (inv : Spec) :
    (BodyM.ofDecl (LoopFrame.invariant b v witness inv)).Lays c L fun p => L.Holds p.2 := by
  intro s p ss s' hin h
  obtain ⟨hgives, rfl⟩ := emits_ofDecl.1 h
  refine ⟨(LoopFrame.invariant_grows b v witness inv).extends_of_gives hgives, L.nil, ?_⟩
  simp only [LoopFrame.invariant, DeclM.gives_bind, DeclM.gives_pure] at hgives
  obtain ⟨_, _, _, e, _, _, _, _, _, ds, _, hds, rfl, _⟩ := hgives
  exact L.append (hL.conditions (definedness_splits (DeclM.gives_ofExpr.1 hds).1).2.2)
    (hL.conditions (by simp [IL.Stmt.isCondition]))

theorem enter (b : Body) (v : View) (span : Span) (spec : LoopSpec) (guard : Option Source.Expr)
    (bodies : List Source.Stmt) :
    (LoopFrame.enter b v span spec guard bodies).Lays c L (Entered L v) := by
  have laid : (LoopFrame.enter b v span spec guard bodies).Lays c L fun l => L.Holds l.wellFormed := by
    refine (Lays.ofDecl .freshId).andThen fun n => (hL.lift (Writing.storeIn
      (hL.own.numbered _ (by simp [Naming.preLoopHeap])) _ _)).andThen fun preHeap =>
      (hL.lift (Writing.enterView hL.own v span n spec.modifies)).andThen fun w =>
      (Lays.ofDecl .state).andThen fun _ => (Lays.ofExpr _).andThen fun current =>
      (hL.lift (Writing.snapshot hL.own (fun _ => by simp [Naming.decreasesInit]) _)).andThen
      fun inits => (Lays.ofDecl (.declareLocal _ _)).andThen fun _ =>
      (hL.lift (Writing.havoc (hL.own.numbered _ (by simp [Naming.loopWitness])))).andThen fun _ => ?_
    refine (Lays.mapM fun inv _ => hL.invariant b w _ inv).bind fun invs hinvs =>
      (Lays.ofDecl (LoopFrame.kept_grows w preHeap _)).andThen fun keeps => ?_
    refine (Lays.returned (V := fun ds : List IL.Stmt => ∀ t ∈ ds, t.isCondition = true)
      fun env ds hds => ?_).bind fun measured hmeasured => .pure ?_
    · obtain ⟨_, _, -, -, hsplits⟩ := (checkList_agree w fun e _ => check_agree e).splits hds
      exact hsplits.conditions
    · refine hL.ifElse (L.append (L.append ?_ (hL.conditions hmeasured))
        (hL.conditions (by simp [IL.Stmt.isCondition]))) L.nil
      exact L.flatMap hinvs
  intro s l ss s' hin h
  obtain ⟨hs, hss, hl⟩ := laid hin h
  exact ⟨hs, hss, enter_view h, hl⟩

theorem close {v : View} {l : LoopFrame} (hl : Entered L v l) (span : Span) (spec : LoopSpec)
    {iteration : BodyM (List MeasureValue)} (h : iteration.Lays c L fun _ => True) :
    (l.close span spec iteration).Lays c L fun _ => True := by
  refine (Lays.block (h.andThen fun olds =>
    hL.lift (Writing.assertDescent l span spec olds))).bind fun body hbody => ?_
  have hloop : L.Holds [.loop none l.invariants (l.wellFormed ++ body)] :=
    hL.loop (L.append hl.2 hbody)
  dsimp only
  split
  · exact .add hloop
  · exact .add (hL.block hloop)

theorem leaveUnless (l : LoopFrame) (guard : Option Source.Expr) :
    (l.leaveUnless guard).Lays c L fun _ => True := by
  cases guard with
  | none => exact .add (hL.ifElse (hL.leave none) L.nil)
  | some g =>
    exact (hL.lift (Writing.value l.view g)).andThen fun _ =>
      .add (hL.ifElse (hL.leave none) L.nil)

theorem snapshot (l : LoopFrame) : l.snapshot.Lays c L fun _ => True :=
  hL.lift (Writing.snapshot hL.own (fun _ => by simp [Naming.decreases]) _)

theorem forallChoice (v : View) {d : Domain} (hd : ∀ b ∈ d.binders, N b.1)
    {check effect : BodyM Unit} (hc : check.Lays c L fun _ => True)
    (he : effect.Lays c L fun _ => True) :
    (forallChoice v d check effect).Lays c L fun _ => True :=
  (Lays.block ((hL.lift (Writing.havocDomain v hd)).andThen fun _ => hc)).bind fun _ hchecked =>
    he.block.bind fun _ heffect => .add (hL.ifElse (L.append hchecked (hL.cons rfl L.nil)) heffect)

end Layout.Flow

/-! ## Statements -/

namespace Body

variable {c : Context} {L : Layout} {N : String → Prop} {b : Body} {v : View}

/-- The code of a statement is laid out, in a view up to the frame of the loops around. -/
def LaysOut (b : Body) (v : View) (c : Context) (L : Layout) (s : Source.Stmt) : Prop :=
  ∀ frame, (b.lowerStmt { v with frame } s).Lays c L fun _ => True

theorem lowerStmt?_lays {o : Option Source.Stmt} (h : ∀ s ∈ o, b.LaysOut v c L s)
    (frame : Option String) : (b.lowerStmt? { v with frame } o).Lays c L fun _ => True := by
  cases o with
  | none => exact .pure trivial
  | some s => exact h s rfl frame

theorem lowerStmts_lays {ss : List Source.Stmt} (h : ∀ s ∈ ss, b.LaysOut v c L s)
    (frame : Option String) : (b.lowerStmts { v with frame } ss).Lays c L fun _ => True := by
  induction ss with
  | nil => exact .pure trivial
  | cons s ss ih => exact (h s (by simp) frame).andThen fun _ => ih fun s hs => h s (by simp [hs])

theorem lowerAlternatives_lays {before : List IL.Stmt} (hbefore : L.Holds before)
    {alts : List (Source.Expr × Source.Stmt)} (h : ∀ a ∈ alts, b.LaysOut v c L a.2)
    (frame : Option String) :
    (b.lowerAlternatives { v with frame } before alts).Lays c L
      fun arms => ∀ arm ∈ arms, L.Holds arm.2 := by
  induction alts with
  | nil => exact .pure (List.forall_mem_nil _)
  | cons a alts ih =>
    exact (Lays.ofExpr _).andThen fun g => (h a (by simp) frame).block.bind fun arm harm =>
      (ih fun a ha => h a (by simp [ha])).bind fun rest hrest =>
      .pure (List.forall_mem_cons.2 ⟨L.append hbefore harm, hrest⟩)

theorem lowerSteps_lays (hL : L.Flow N) {prev : Source.Expr}
    {steps : List ((CalcOp × Source.Expr) × Option Source.Stmt)}
    (h : ∀ a ∈ steps, ∀ s ∈ a.2, b.LaysOut v c L s) (frame : Option String) :
    (b.lowerSteps { v with frame } prev steps).Lays c L
      fun checked => ∀ k ∈ checked, L.Holds k.1 := by
  induction steps generalizing prev with
  | nil => exact .pure (List.forall_mem_nil _)
  | cons a steps ih =>
    obtain ⟨⟨op, line⟩, hint⟩ := a
    unfold lowerSteps
    refine (Lays.block ((Lays.ofExpr _).andThen fun _ => (hL.lift (Writing.assume _)).andThen
      fun _ => (hL.lift (Writing.define _ line)).andThen fun _ =>
      (lowerStmt?_lays (h ((op, line), hint) (by simp)) frame).andThen fun _ =>
      hL.lift (Writing.assertGoal b _ _ false _))).bind fun arm harm => ?_
    exact (Lays.ofExpr _).andThen fun _ => (ih fun a ha => h a (by simp [ha])).bind
      fun rest hrest => .pure (List.forall_mem_cons.2 ⟨harm, hrest⟩)

/-- The code of a statement is laid out if the code of yields is. -/
theorem lowerStmt_lays (hL : L.Flow N) (hb : ∀ o ∈ b.outs, N o.1)
    (hyield : ∀ frame span values,
      (b.lowerYield { v with frame } span values).Lays c L fun _ => True)
    {s : Source.Stmt} (hs : s.Keeps N) : b.LaysOut v c L s := by
  induction s using Source.Stmt.recData with
  | block span body ih =>
    refine lowerStmts_lays fun s hmem => ih s hmem (hs.part fun u hu => ?_)
    simp [Stmt.substmts, Stmt.mem_substmtsList hmem hu]
  | varDecl span x t rhs =>
    exact fun frame => hL.lift (Writing.lowerVarDecl hL.own _ (hs.own (by simp [Stmt.ownVars])) t rhs)
  | assign span lhss rhss =>
    refine fun frame => hL.lift (Writing.lowerAssign hL.own _ span (fun l hl =>
      Lhs.within_of_var? fun x hx => hs.own ?_) rhss)
    exact List.mem_filterMap.2 ⟨l, hl, hx⟩
  | call span m receiver args outs =>
    refine fun frame => hL.lowerCall b _ span m receiver args fun l hl =>
      Lhs.within_of_var? fun x hx => hs.own ?_
    exact List.mem_filterMap.2 ⟨l, hl, hx⟩
  | ifElse span guard thn els iht ihe =>
    intro frame
    have branches (g : Option IL.Expr) := ((iht (hs.part fun u hu => by
        simp [Stmt.substmts, hu])) frame).block.bind fun _ ha =>
      (lowerStmt?_lays (fun s hmem => ihe s hmem (hs.part fun u hu => by
        simp [Stmt.substmts, Stmt.mem_substmts? hmem hu])) frame).block.bind fun _ he =>
      Lays.add (hL.ifElse (g := g) ha he)
    cases guard with
    | none => exact (Lays.pure (V := fun _ => True) trivial).andThen branches
    | some e =>
      exact (hL.lift (Writing.value _ e)).andThen fun _ =>
        (Lays.pure (V := fun _ => True) trivial).andThen branches
  | altIf span alts ih =>
    intro frame
    refine (Lays.forM fun e _ => hL.lift (Writing.define _ e)).andThen fun _ =>
      (Lays.ofExpr _).andThen fun _ => (hL.lift (Writing.assert _ _)).andThen fun _ =>
      (lowerAlternatives_lays L.nil (fun a ha => ih a ha (hs.part fun u hu => ?_)) frame).bind
      fun arms harms => .add (hL.alternativesChoice harms (hL.cons rfl L.nil))
    simp [Stmt.substmts, Stmt.mem_substmtsAlternatives ha hu]
  | loop span spec guard body ih =>
    intro frame
    refine (hL.enter b _ span spec guard _).bind fun l hl => hL.close hl span spec ?_
    obtain ⟨⟨frame', hview⟩, -⟩ := hl
    refine (hL.leaveUnless l guard).andThen fun _ => (hL.snapshot l).andThen fun _ => ?_
    rw [hview]
    refine (lowerStmt?_lays (fun s hmem => ih s hmem (hs.part fun u hu => ?_)) frame').andThen
      fun _ => .pure trivial
    simp [Stmt.substmts, Stmt.mem_substmts? hmem hu]
  | altLoop span spec alts body ih _ =>
    intro frame
    refine (hL.enter b _ span spec none _).bind fun l hl => hL.close hl span spec ?_
    obtain ⟨⟨frame', hview⟩, -⟩ := hl
    refine (Lays.forM fun e _ => hL.lift (Writing.define _ e)).andThen fun _ =>
      (hL.snapshot l).inside.bind fun p hp => ?_
    rw [hview]
    refine (lowerAlternatives_lays hp.2 (fun a ha => ih a ha (hs.part fun u hu => ?_)) frame').bind
      fun arms harms => (Lays.add (hL.alternativesChoice harms (hL.leave none))).andThen fun _ =>
      .pure trivial
    simp [Stmt.substmts, Stmt.mem_substmtsAlternatives ha hu]
  | cases span e arms ih =>
    intro frame
    refine (hL.lift (Writing.define _ e)).andThen fun _ => (Lays.ofExpr _).andThen fun dt =>
      (Lays.ofExpr _).andThen fun d => (Lays.ofExpr _).andThen fun x =>
      (hL.lift (Writing.temp hL.own _ x)).andThen fun scrutinee => ?_
    refine (Lays.mapM (V := fun branch : Option IL.Expr × List IL.Stmt => L.Holds branch.2)
      fun k _ => ?_).bind fun branches hbranches => .add (hL.cascade hbranches)
    rw [lowerArms_eq, List.find?_map]
    cases hfind : arms.find? (_ ∘ fun a => (a.1, b.lowerStmt _ a.2)) with
    | none =>
      exact (Lays.pure (V := L.Holds) (hL.cons rfl L.nil)).bind fun _ h => .pure h
    | some arm =>
      have harm := List.mem_of_find?_eq_some hfind
      refine (Lays.block ((hL.lift (Writing.bindPattern d dt (fun q hq => hs.own ?_) _)).andThen
        fun _ => ih arm harm (hs.part fun u hu => ?_) frame)).bind fun _ h => .pure h
      · exact List.mem_flatMap.2 ⟨arm, harm, List.mem_map_of_mem hq⟩
      · simp [Stmt.substmts, Stmt.mem_substmtsArms harm hu]
  | calculation span first steps ih =>
    intro frame
    refine (hL.lift (Writing.define _ first)).block.bind fun opening hopening =>
      (lowerSteps_lays hL (fun a ha s hmem => ih a ha s hmem (hs.part fun u hu => ?_)) frame).bind
      fun checked hchecked => (Lays.ofExpr _).andThen fun calls => .add (hL.freeChoice ?_)
    · simp [Stmt.substmts, Stmt.mem_substmtsSteps ha hmem hu]
    · intro arm harm
      rcases List.mem_append.1 harm with harm | harm
      · obtain ⟨a, ha, rfl⟩ := List.mem_map.1 harm
        refine L.append ?_ (hL.cons rfl L.nil)
        rcases List.mem_cons.1 ha with rfl | ha
        · exact hopening
        · obtain ⟨k, hk, rfl⟩ := List.mem_map.1 ha
          exact hchecked k hk
      · obtain rfl := List.mem_singleton.1 harm
        refine hL.conditions fun t ht => ?_
        simp only [List.mem_append, List.mem_map, List.mem_singleton] at ht
        rcases ht with ⟨e, -, rfl⟩ | rfl <;> rfl
  | forallAssign span d lhs e =>
    refine fun frame => hL.forallChoice _ (fun q hq => hs.own ?_)
      ((hL.lift (Writing.ofLhs hL.own _ (Lhs.within_of_var? fun x hx => hs.own ?_))).andThen
        fun _ => (hL.lift (Writing.evalRhs hL.own _ _ _)).andThen fun _ =>
        hL.lift (Writing.assertInjective _ span d lhs e))
      (hL.lift (Writing.assignForall hL.own _ d lhs e))
    · exact List.mem_append_left _ (List.mem_map_of_mem hq)
    · exact List.mem_append_right _ (Option.mem_toList.2 hx)
  | forallCall span d m receiver args =>
    intro frame
    have hd : ∀ q ∈ d.binders, N q.1 := fun q hq => hs.own (List.mem_map_of_mem hq)
    refine (Lays.inside (V := fun _ => True) ((hL.lift (Writing.havocDomain _ hd)).andThen fun _ =>
      (Lays.ofDecl .context).andThen fun _ => (Lays.ofExpr _).andThen fun callee => ?_)).bind
      fun p hp => (hL.lift (Writing.forallEnsures _ d _ receiver args)).block.bind
      fun _ heffect => .add (hL.ifElse (L.append hp.2 (hL.cons rfl L.nil)) heffect)
    have called := (hL.lowerCall (c := c) b { v with frame } span m receiver args
      (List.forall_mem_nil _)).andThen fun _ =>
        Lays.pure (a := callee) (V := fun _ => True) trivial
    dsimp only
    split
    · exact Lays.reject.bind (V := fun _ => False) fun _ h => h.elim
    · exact called
  | forallProof span d ensures body ih =>
    refine fun frame => hL.forallChoice _ (fun q hq => hs.own (List.mem_map_of_mem hq))
      ((ih (hs.part fun u hu => ?_) frame).andThen fun _ =>
        hL.lift (Writing.establish b _ _ ensures))
      ((Lays.ofExpr _).andThen fun _ => hL.lift (Writing.assumeForall _ d _))
    simp [Stmt.substmts, hu]
  | assert span e inherited =>
    exact fun frame => (hL.lift (Writing.define _ e)).andThen fun _ =>
      hL.lift (Writing.assertGoal b _ e inherited _)
  | assume span e =>
    exact fun frame => (hL.lift (Writing.value _ e)).andThen fun _ => hL.lift (Writing.assume _)
  | ret span values =>
    refine fun frame => Lays.andThen (V := fun _ => True) ?_ fun _ => .add hL.ret
    cases values with
    | none => exact .pure trivial
    | some es => exact hL.lift (Writing.assignOuts hL.own hb _ es)
  | yield span values => exact fun frame => hyield frame span values
  | leave span label => exact fun frame => .add (hL.leave label)

end Body

end ContractLowering
