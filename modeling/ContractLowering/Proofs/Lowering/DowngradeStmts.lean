import ContractLowering.Proofs.Lowering.DowngradeBodies

/-!
# Statements in step with plain ones

A statement is lowered to statements that relax those of the plain one, by induction on the
statement: the checks that are missing are of invariants, of assertions and of the claims of forall
statements that are inherited.
-/

namespace ContractLowering

open IL Source BodyM

/-! ## Inherited goals -/

namespace Source

/-- The conditions of the clauses that are inherited and checked. -/
def inheritedGoals (specs : List Spec) : List Expr :=
  (specs.filter fun s => s.inherited && !s.free).map (·.expr)

theorem mem_inheritedGoals {specs : List Spec} {s : Spec} (hs : s ∈ specs)
    (hi : s.inherited = true) (hf : s.free = false) : s.expr ∈ inheritedGoals specs :=
  List.mem_map_of_mem (List.mem_filter.mpr ⟨hs, by simp [hi, hf]⟩)

/-- The goals that a statement by itself checks and has inherited. -/
def Stmt.ownInherited : Stmt → List Expr
  | .loop _ spec _ _ | .altLoop _ spec _ _ => inheritedGoals spec.invariants
  | .forallProof _ _ ensures _ => inheritedGoals ensures
  | .assert _ e inherited => if inherited then [e] else []
  | _ => []

/-- The goals that a statement checks and has inherited. -/
def Stmt.inheritedGoals (s : Stmt) : List Expr := s.substmts.flatMap Stmt.ownInherited

/-- The goals that a statement inherits are among some. -/
def Stmt.Inherits (goals : List Expr) (s : Stmt) : Prop :=
  ∀ t ∈ s.substmts, ∀ goal ∈ t.ownInherited, goal ∈ goals

theorem Stmt.inherits_inheritedGoals (s : Stmt) : s.Inherits s.inheritedGoals :=
  fun t ht _ hg => List.mem_flatMap.mpr ⟨t, ht, hg⟩

end Source

section

variable {J : Spared} {P : Message → IL.Expr → Prop} {c : Context}

open BodyM.Follows (ofExpr ofDecl addSame steady mapMSame forMSame forMOption)

/-! ## Forall statements -/

theorem havocDomain_steady (v : View) (d : Domain) : (havocDomain v d).Steady J P c := by
  unfold havocDomain
  refine .andThen (forMSame fun b _ => (declareLocal_steady _ _).andThen fun _ => havoc_steady _)
    fun _ => (ofExpr (bindersWhere_has _ _)).andThen fun _ => (assume_steady _).andThen fun _ => ?_
  cases d.range with
  | none => exact steady ()
  | some r => exact (value_steady v r).andThen fun _ => assume_steady _

theorem domainHolds_blind (v : View) (d : Domain) : (domainHolds v d).Blind :=
  (bindersWhere_has _ _).bind fun _ => (lowerExpr?_has v _).bind fun _ => .pure _

theorem forallLocation_steady (v : View) (lhs : Lhs) : (forallLocation v lhs).Steady J c := by
  cases lhs with
  | field span obj fid =>
    exact (DeclM.Follows.ofExpr (.field fid)).andThen fun f =>
      (DeclM.Follows.ofExpr (.fieldHandle f)).andThen fun _ =>
      (DeclM.Follows.ofExpr (lowerExpr_has obj v)).andThen fun _ => .steady _
  | index span arr idx =>
    exact (DeclM.Follows.ofExpr (lowerExpr_has idx v)).andThen fun _ =>
      (DeclM.Follows.ofExpr (lowerExpr_has arr v)).andThen fun _ =>
      (DeclM.Follows.ofExpr (arrayElem_blind arr)).andThen fun _ => .steady _
  | var | range => exact .reject _

theorem boxedValue_blind (v : View) (t : Typ) (e : Source.Expr) : (boxedValue v t e).Blind :=
  (lowerExpr_has e v).bind fun _ => .pure _

theorem assertInjective_steady (v : View) (span : Span) (d : Domain) (lhs : Lhs)
    (e : Source.Expr) : (assertInjective v span d lhs e).Steady J P c :=
  freshId_steady.andThen fun _ => (ofDecl (forallLocation_steady v lhs)).andThen fun _ =>
    (ofDecl (forallLocation_steady v _)).andThen fun _ =>
    (ofExpr (boxedValue_blind v _ e)).andThen fun _ => (ofExpr (boxedValue_blind v _ _)).andThen
    fun _ => (ofExpr (domainHolds_blind v _)).andThen fun _ =>
    (ofExpr (allAuto_has _ _)).andThen fun _ => assert_steady _ _

theorem assignForall_steady (v : View) (d : Domain) (lhs : Lhs) (e : Source.Expr) :
    (assignForall v d lhs e).Steady J P c :=
  havocHeap_steady.andThen fun _ => (ofDecl (forallLocation_steady _ lhs)).andThen fun _ =>
    (ofExpr (boxedValue_blind _ _ e)).andThen fun _ => (ofExpr (domainHolds_blind _ d)).andThen
    fun _ => (ofExpr (allAuto_has _ _)).andThen fun _ => (assume_steady _).andThen fun _ =>
    assume_steady _

theorem forallChoice_follows (v : View) (d : Domain) {check check' effect effect' : BodyM Unit}
    (hc : check.Follows J P c Eq check') (he : effect.Follows J P c Eq effect') :
    (forallChoice v d check effect).Follows J P c Eq (forallChoice v d check' effect') :=
  (BodyM.Follows.block ((havocDomain_steady v d).andThen fun _ => hc)).bind fun _ _ hss =>
    he.block.bind fun _ _ hts => .add (.single (.ifElse none (hss.append (.refl _)) hts))

theorem assumeForall_steady (v : View) (d : Domain) (facts : List IL.Expr) :
    (assumeForall v d facts).Steady J P c :=
  (ofExpr (domainHolds_blind v d)).andThen fun _ => (ofExpr (allAuto_has _ _)).andThen fun _ =>
    assume_steady _

/-- What a call of a method for all values of bound variables ensures. -/
theorem forallEnsures_steady (v : View) (d : Domain) (callee : Method)
    (receiver : Option Source.Expr) (args : List Source.Expr) :
    (forallEnsures v d callee receiver args).Follows J P c Eq
      (forallEnsures v d callee.plain receiver args) := by
  have same : forallEnsures v d callee.plain receiver args =
      forallEnsures v d callee receiver args := by
    simp only [forallEnsures, Method.plain, List.map_map]
    rfl
  rw [same]
  exact (ofExpr (lowerTerms_has _ _)).andThen fun _ => assumeForall_steady v d _

/-! ## Yields -/

theorem extendHistory_steady (v : View) (i : Iterator) (y : Source.Binder) :
    (extendHistory v i y).Steady J P c :=
  (ofExpr (.field _)).andThen fun f => (ofExpr (.fieldHandle f)).andThen fun _ =>
    updateHeap_steady _ _ _

namespace Body

variable (b : Body) {goals : List Source.Expr}

/-- The yield-ensures clauses that the body of an iterator inherits are among some goals. -/
def InheritsYields (goals : List Source.Expr) : Prop :=
  ∀ i ∈ b.iterator, ∀ goal ∈ inheritedGoals i.yieldEnsures, goal ∈ goals

theorem lowerYield_follows (v : View) (span : Span) (values : Option (List Source.Expr))
    (hb : b.InheritsYields goals) :
    (b.lowerYield v span values).Follows J (b.refinement.Spares c goals) c Eq
      (b.plain.lowerYield v span values) := by
  refine .state fun s s' hs => ?_
  obtain ⟨r, termination, outs, iterator⟩ := b
  rw [hs]
  cases iterator with
  | none => exact .ofDecl (.reject _)
  | some i =>
    cases s.decl.yieldCount with
    | none => exact .ofDecl (.reject _)
    | some count =>
      let b : Body := ⟨r, termination, outs, some i⟩
      refine (forMOption fun es => b.assignOuts_steady v es).andThen fun _ => ?_
      refine (forMSame fun y _ => extendHistory_steady v i y).andThen fun _ => ?_
      refine (assign_steady count _).andThen fun _ => ?_
      refine (b.establish_follows v _ i.yieldEnsures fun s hs hi hf =>
        hb i rfl _ (mem_inheritedGoals hs hi hf)).bind fun _ _ _ => ?_
      refine havocHeap_steady.andThen fun _ => (ofExpr (frameContains_has v i.reads _)).andThen
        fun _ => (assume_steady _).andThen fun _ => ?_
      refine .forM (T := fun s s' => s' = s.plain) ?_ fun s _ hs => ?_
      · exact List.forall₂_map_right_iff.mpr (List.forall₂_same.mpr fun _ _ => rfl)
      · subst hs
        exact (ofExpr (lowerExpr_has s.expr v)).andThen fun _ => assume_steady _

end Body

/-! ## Loops -/

namespace LoopFrame

/-- A loop that is the same but for checks of its invariants. -/
def Relaxes (P : Message → IL.Expr → Prop) (l l' : LoopFrame) : Prop :=
  ∃ ks, l' = { l with invariants := ks } ∧ List.Forall₂ (Clause.Relaxes P) l.invariants ks

/-- The lowering of an invariant that is the same but for its check. -/
def RelaxedInvariant (P : Message → IL.Expr → Prop) (a a' : List Clause × List IL.Stmt) : Prop :=
  List.Forall₂ (Clause.Relaxes P) a.1 a'.1 ∧ a.2 = a'.2

theorem enterView_steady (v : View) (span : Span) (n : Nat) (mods : Option (List Source.Expr)) :
    (enterView v span n mods).Steady J P c := by
  cases mods with
  | none => exact steady _
  | some mods =>
    exact (forMSame fun e _ => define_steady v e).andThen fun _ =>
      (ofExpr (frameContains_has v mods _)).andThen fun _ => (assert_steady _ _).andThen fun _ =>
      (declareLocal_steady _ _).andThen fun _ => (ofExpr (frameSet_has v mods _)).andThen fun _ =>
      (assign_steady _ _).andThen fun _ => steady _

/-- An invariant is free where the plain one is checked only if it is inherited. -/
theorem invariant_follows (b : Body) (v : View) (iteration : String) {goals : List Source.Expr}
    (inv : Spec) (h : inv.inherited = true → inv.free = false → inv.expr ∈ goals) :
    (invariant b v (.var iteration) inv).Follows J c
      (RelaxedInvariant (b.refinement.Spares c goals))
      (invariant b.plain v (.var iteration) inv.plain) := by
  refine .context ?_
  refine DeclM.Follows.bindRuns (DeclM.Follows.ofExpr (lowerExpr_has inv.expr v))
    fun e _ he hrun => ?_
  subst he
  refine (DeclM.Follows.ofExpr (canCall_has v inv.expr)).andThen fun calls =>
    (DeclM.Follows.ofExpr (definedness_has v {} inv.expr)).andThen fun defined => .pure ⟨?_, rfl⟩
  refine .cons ?_ (Clause.Relaxes.refl_all _)
  obtain ⟨s, s', hrun⟩ := hrun
  rw [Spec.plain_free, Spec.plain_inherited, Refinement.keepsCheck_plain]
  cases hf : inv.free with
  | true => exact .same _
  | false =>
    cases hk : b.refinement.keepsCheck c.options.reverifyRefined inv.inherited inv.expr.span with
    | true => exact .same _
    | false =>
      refine .spared (Refinement.spares_of_keepsCheck hk (fun hi => ⟨inv.expr, h hi hf,
        .inr ⟨v, s.env c, e, iteration, rfl, ?_, rfl, rfl⟩⟩) rfl)
      exact (hrun.ofExpr (lowerExpr_stable inv.expr v)).1

theorem kept_steady (v : View) (preHeap : IL.Expr) (assigned : List Source.Binder) :
    (kept v preHeap assigned).Steady J c := by
  refine .andThen ?_ fun _ => .steady _
  induction assigned with
  | nil => exact .steady _
  | cons x assigned ih =>
    rw [List.mapM_cons]
    exact (DeclM.Follows.ofExpr (whereClause_has _ _ _)).andThen fun _ => ih.andThen fun _ =>
      .steady _

theorem enter_follows (b : Body) (v : View) (span : Span) (spec : LoopSpec)
    (guard : Option Source.Expr) (bodies : List Source.Stmt) {goals : List Source.Expr}
    (h : ∀ goal ∈ inheritedGoals spec.invariants, goal ∈ goals) :
    (enter b v span spec guard bodies).Follows J (b.refinement.Spares c goals) c
      (Relaxes (b.refinement.Spares c goals))
      (enter b.plain v span spec.plain guard (bodies.map Stmt.plain)) := by
  have yields : (bodies.map Stmt.plain).any Stmt.containsYield = bodies.any Stmt.containsYield := by
    simp [Function.comp_def, Stmt.containsYield_plain]
  have assigned : (bodies.map Stmt.plain).flatMap Stmt.assignedLocals =
      bodies.flatMap Stmt.assignedLocals := by
    simp [List.flatMap_map, Stmt.assignedLocals_plain]
  refine freshId_steady.andThen fun n => (storeIn_steady _ _ _).andThen fun preHeap => ?_
  refine (enterView_steady v span n spec.modifies).andThen fun view => .state fun s s' hs => ?_
  rw [hs, yields, assigned]
  refine (ofExpr (Termination.values_has view _)).andThen fun current => ?_
  refine (snapshot_steady _ _).andThen fun inits => (declareLocal_steady _ _).andThen fun _ =>
    (havoc_steady _).andThen fun _ => ?_
  refine BodyM.Follows.bind (BodyM.Follows.mapM (R := RelaxedInvariant (b.refinement.Spares c goals))
    (T := fun inv inv' => inv ∈ spec.invariants ∧ inv' = inv.plain) ?_ fun inv _ hinv => ofDecl ?_)
    fun invs invs' hinvs => ?_
  · exact List.forall₂_map_right_iff.mpr (List.forall₂_same.mpr fun inv hinv => ⟨hinv, rfl⟩)
  · obtain ⟨hinv, rfl⟩ := hinv
    exact invariant_follows b view _ inv fun hi hf => h _ (mem_inheritedGoals hinv hi hf)
  refine (ofDecl (kept_steady view preHeap _)).andThen fun keeps =>
    (ofExpr (definednessOfAll_has view {} _)).andThen fun measured => .pure ?_
  have clauses : List.Forall₂ (Clause.Relaxes (b.refinement.Spares c goals))
      (invs.flatMap (·.1)) (invs'.flatMap (·.1)) :=
    List.rel_flatMap hinvs fun _ _ hab => hab.1
  have defined : invs.flatMap (·.2) = invs'.flatMap (·.2) := by
    rw [← List.forall₂_eq_eq_eq]
    exact List.rel_flatMap hinvs fun _ _ hab => hab.2 ▸ List.forall₂_refl _
  rw [defined]
  exact ⟨_, rfl, List.rel_append (List.rel_append clauses (Clause.Relaxes.refl_all _))
    (Clause.Relaxes.refl_all _)⟩

theorem assertDescent_steady (l : LoopFrame) (span : Span) (spec : LoopSpec)
    (olds : List MeasureValue) : (l.assertDescent span spec olds).Steady J P c := by
  unfold assertDescent
  dsimp only
  split
  · exact steady ()
  split
  · exact assert_steady _ _
  · exact (ofExpr (Termination.values_has _ _)).andThen fun _ => assert_steady _ _

theorem close_follows {l l' : LoopFrame} (hl : l.Relaxes P l') (span : Span) (spec : LoopSpec)
    {x y : BodyM (List MeasureValue)} (hx : x.Follows J P c Eq y) :
    (l.close span spec x).Follows J P c Eq (l'.close span spec.plain y) := by
  obtain ⟨ks, rfl, hks⟩ := hl
  refine (BodyM.Follows.block (hx.bind fun olds _ holds =>
    holds ▸ assertDescent_steady l span spec olds)).bind fun body body' hbody => ?_
  have loop := Stmt.Relaxes.loop none hks
    ((Stmt.RelaxesAll.refl (P := P) l.wellFormed).append hbody)
  rw [show spec.plain.label = spec.label from rfl]
  cases spec.label with
  | none => exact .add (.single loop)
  | some label => exact .add (.single (.block _ (.single loop)))

theorem leaveUnless_steady (l : LoopFrame) (guard : Option Source.Expr) :
    (l.leaveUnless guard).Steady J P c := by
  cases guard with
  | none => exact addSame _
  | some g => exact (value_steady l.view g).andThen fun _ => addSame _

end LoopFrame

/-! ## Branches -/

theorem lowerVarDecl_steady (v : View) (x : String) (t : Typ) (rhs : Option Rhs) :
    (lowerVarDecl v x t rhs).Steady J P c := by
  refine (declareLocal_steady x _).andThen fun _ => ?_
  cases rhs with
  | none =>
    exact (havoc_steady x).andThen fun _ => (ofExpr (whereClause_has _ _ _)).andThen fun _ =>
      assume?_steady _
  | some r => exact (evalRhs_steady v t r).andThen fun _ => assign_steady x _

theorem bindPattern_steady (d : Datatype) (dt : Path) (p : Pattern) (s : IL.Expr) :
    (bindPattern d dt p s).Steady J P c :=
  (ofExpr (caseBindings_has d dt p s)).andThen fun _ => forMSame fun _ _ =>
    (declareLocal_steady _ _).andThen fun _ => assign_steady _ _

end

/-- Branches with the same tests, whose statements relax the others'. -/
abbrev RelaxedBranches {α : Type} (P : Message → IL.Expr → Prop) :
    List (α × List IL.Stmt) → List (α × List IL.Stmt) → Prop :=
  List.Forall₂ fun a a' => a.1 = a'.1 ∧ Stmt.RelaxesAll P a.2 a'.2

variable {P : Message → IL.Expr → Prop}

theorem relaxes_cascade {bs bs' : List (Option IL.Expr × List IL.Stmt)}
    (h : RelaxedBranches P bs bs') : Stmt.RelaxesAll P (cascade bs) (cascade bs') := by
  induction h with
  | nil => exact .nil
  | @cons b b' bs bs' hb hbs ih =>
    obtain ⟨test, arm⟩ := b
    obtain ⟨test', arm'⟩ := b'
    obtain ⟨rfl, harm⟩ := hb
    cases hbs with
    | nil => exact harm
    | cons => exact .single (.ifElse test harm ih)

theorem relaxes_freeChoice {arms arms' : List (List IL.Stmt)}
    (h : List.Forall₂ (Stmt.RelaxesAll P) arms arms') :
    Stmt.RelaxesAll P (freeChoice arms) (freeChoice arms') := by
  refine relaxes_cascade ?_
  rw [RelaxedBranches, List.forall₂_map_left_iff, List.forall₂_map_right_iff]
  exact h.imp fun _ _ ha => ⟨rfl, ha⟩

theorem relaxes_alternativesChoice {alts alts' : List (IL.Expr × List IL.Stmt)}
    (h : RelaxedBranches P alts alts') (otherwise : List IL.Stmt) :
    Stmt.RelaxesAll P (alternativesChoice alts otherwise) (alternativesChoice alts' otherwise) := by
  have guards : alts.map (·.1) = alts'.map (·.1) := by
    rw [← List.forall₂_eq_eq_eq, List.forall₂_map_left_iff, List.forall₂_map_right_iff]
    exact h.imp fun _ _ ha => ha.1
  unfold alternativesChoice
  dsimp only
  rw [guards]
  refine relaxes_freeChoice (List.rel_append ?_ (.cons (.refl _) .nil))
  rw [List.forall₂_map_left_iff, List.forall₂_map_right_iff]
  exact h.imp fun _ _ ha => ha.1 ▸ .cons (.same _) ha.2

/-! ## Statements -/

namespace Body

section

variable {J : Spared} {c : Context} {b : Body} {goals : List Source.Expr}

open BodyM.Follows (ofExpr ofDecl addSame steady mapMSame forMSame forMOption)

/-- A statement is lowered in step with the plain one, if what it inherits is among the goals. -/
def LowersInStep (J : Spared) (c : Context) (b : Body) (goals : List Source.Expr)
    (s : Source.Stmt) : Prop :=
  ∀ v : View, (b.lowerStmt v s).Follows J (b.refinement.Spares c goals) c Eq
    (b.plain.lowerStmt v s.plain)

theorem lowerStmt?_follows (v : View) {o : Option Source.Stmt}
    (h : ∀ s ∈ o, LowersInStep J c b goals s) :
    (b.lowerStmt? v o).Follows J (b.refinement.Spares c goals) c Eq
      (b.plain.lowerStmt? v (Stmt.plain? o)) := by
  cases o with
  | none => exact steady ()
  | some s => exact h s rfl v

theorem lowerStmts_follows (v : View) {ss : List Source.Stmt}
    (h : ∀ s ∈ ss, LowersInStep J c b goals s) :
    (b.lowerStmts v ss).Follows J (b.refinement.Spares c goals) c Eq
      (b.plain.lowerStmts v (Stmt.plainList ss)) := by
  induction ss with
  | nil => exact steady ()
  | cons s ss ih => exact (h s (by simp) v).bind fun _ _ _ => ih fun s hs => h s (by simp [hs])

theorem lowerAlternatives_follows (v : View) {before before' : List IL.Stmt}
    (hb : Stmt.RelaxesAll (b.refinement.Spares c goals) before before')
    {alts : List (Source.Expr × Source.Stmt)} (h : ∀ a ∈ alts, LowersInStep J c b goals a.2) :
    (b.lowerAlternatives v before alts).Follows J (b.refinement.Spares c goals) c
      (RelaxedBranches (b.refinement.Spares c goals))
      (b.plain.lowerAlternatives v before' (Stmt.plainAlternatives alts)) := by
  induction alts with
  | nil => exact .pure .nil
  | cons a alts ih =>
    exact (ofExpr (lowerExpr_has a.1 v)).andThen fun g => (h a (by simp) v).block.bind
      fun _ _ hss => (ih fun a ha => h a (by simp [ha])).bind fun _ _ hrest =>
      .pure (.cons ⟨rfl, hb.append hss⟩ hrest)

theorem lowerSteps_follows (v : View) (prev : Source.Expr)
    {steps : List ((CalcOp × Source.Expr) × Option Source.Stmt)}
    (h : ∀ a ∈ steps, ∀ s ∈ a.2, LowersInStep J c b goals s) :
    (b.lowerSteps v prev steps).Follows J (b.refinement.Spares c goals) c
      (List.Forall₂ fun a a' => Stmt.RelaxesAll (b.refinement.Spares c goals) a.1 a'.1 ∧
        a.2 = a'.2)
      (b.plain.lowerSteps v prev (Stmt.plainSteps steps)) := by
  induction steps generalizing prev with
  | nil => exact .pure .nil
  | cons a steps ih =>
    obtain ⟨⟨op, line⟩, hint⟩ := a
    refine BodyM.Follows.bind (BodyM.Follows.block ?_) fun _ _ hss =>
      (ofExpr (lowerExpr_has _ v)).andThen fun _ =>
      (ih line fun a ha => h a (by simp [ha])).bind fun _ _ hrest => .pure (.cons ⟨hss, rfl⟩ hrest)
    refine (ofExpr (canCall_has v prev)).andThen fun _ => (assume_steady _).andThen fun _ =>
      (define_steady v line).andThen fun _ =>
      (lowerStmt?_follows v (h ((op, line), hint) (by simp))).bind fun _ _ _ => ?_
    exact b.assertGoal_follows v _ false _ nofun

/-- The branches of a calculation. -/
theorem relaxes_calculation {P : Message → IL.Expr → Prop} {opening opening' : List IL.Stmt}
    {checked checked' : List (List IL.Stmt × IL.Expr)} (ho : Stmt.RelaxesAll P opening opening')
    (h : List.Forall₂ (fun a a' => Stmt.RelaxesAll P a.1 a'.1 ∧ a.2 = a'.2) checked checked')
    (calls : List IL.Expr) :
    Stmt.RelaxesAll P
      (freeChoice ((opening :: checked.map (·.1)).map (fun arm => arm ++ [IL.Stmt.assume .ff]) ++
        [calls.map IL.Stmt.assume ++ [.assume (.conj (checked.map (·.2)))]]))
      (freeChoice ((opening' :: checked'.map (·.1)).map (fun arm => arm ++ [IL.Stmt.assume .ff]) ++
        [calls.map IL.Stmt.assume ++ [.assume (.conj (checked'.map (·.2)))]])) := by
  have shown : checked.map (·.2) = checked'.map (·.2) := by
    rw [← List.forall₂_eq_eq_eq, List.forall₂_map_left_iff, List.forall₂_map_right_iff]
    exact h.imp fun _ _ ha => ha.2
  have arms : List.Forall₂ (Stmt.RelaxesAll P) (opening :: checked.map (·.1))
      (opening' :: checked'.map (·.1)) := by
    refine .cons ho ?_
    rw [List.forall₂_map_left_iff, List.forall₂_map_right_iff]
    exact h.imp fun _ _ ha => ha.1
  rw [shown]
  refine relaxes_freeChoice (List.rel_append ?_ (.cons (.refl _) .nil))
  rw [List.forall₂_map_left_iff, List.forall₂_map_right_iff]
  exact arms.imp fun _ _ ha => ha.append (.refl _)

/-- A statement is lowered in step with the plain one. -/
theorem lowerStmt_follows (hb : b.InheritsYields goals) (s : Source.Stmt)
    (hs : s.Inherits goals) : LowersInStep J c b goals s := by
  induction s using Source.Stmt.recData with
  | block span body ih =>
    refine fun v => lowerStmts_follows v fun s hs' => ih s hs' fun t ht => hs t ?_
    simp [Stmt.substmts, Stmt.mem_substmtsList hs' ht]
  | varDecl span x t rhs => exact fun v => lowerVarDecl_steady v x t rhs
  | assign span lhss rhss => exact fun v => lowerAssign_steady v span lhss rhss
  | call span m receiver args outs =>
    exact fun v => b.lowerCall_steady v span m receiver args outs
  | ifElse span guard thn els iht ihe =>
    intro v
    have branches (g : Option IL.Expr) := (iht (fun t ht => hs t (by simp [Stmt.substmts, ht])) v
      |>.block).bind fun _ _ hss => (lowerStmt?_follows (J := J) v fun s hs' => ihe s hs'
        fun t ht => hs t (by simp [Stmt.substmts, Stmt.mem_substmts? hs' ht])).block.bind
        fun _ _ hts => BodyM.Follows.add (.single (.ifElse g hss hts))
    cases guard with
    | none => exact (steady _).andThen branches
    | some e =>
      exact (value_steady v e).andThen fun _ => (steady _).andThen branches
  | altIf span alts ih =>
    intro v
    have guards : (Stmt.plainAlternatives alts).map (·.1) = alts.map (·.1) := by
      rw [Stmt.plainAlternatives_eq, List.map_map]
      rfl
    rw [Stmt.plain, lowerStmt, lowerStmt, guards]
    refine (forMSame fun e _ => define_steady v e).andThen fun _ =>
      (ofExpr (lowerTerms_has v _)).andThen fun _ => (assert_steady _ _).andThen fun _ => ?_
    refine (lowerAlternatives_follows v .nil fun a ha => ih a ha fun t ht => hs t ?_).bind
      fun _ _ harms => .add (relaxes_alternativesChoice harms _)
    simp [Stmt.substmts, Stmt.mem_substmtsAlternatives ha ht]
  | loop span spec guard body ih =>
    intro v
    have bodies : (Stmt.plain? body).toList = body.toList.map Stmt.plain := by
      cases body <;> rfl
    rw [Stmt.plain, lowerStmt, lowerStmt, bodies]
    refine (LoopFrame.enter_follows b v span spec guard _
      (hs (.loop span spec guard body) (by simp [Stmt.substmts]))).bind fun l l' hl => ?_
    refine LoopFrame.close_follows hl span spec ?_
    obtain ⟨ks, rfl, -⟩ := hl
    refine (LoopFrame.leaveUnless_steady l guard).andThen fun _ =>
      (snapshot_steady _ _).andThen fun _ =>
      (lowerStmt?_follows l.view fun s hs' => ih s hs' fun t ht => hs t ?_).bind fun _ _ _ =>
      steady _
    simp [Stmt.substmts, Stmt.mem_substmts? hs' ht]
  | altLoop span spec alts body ih _ =>
    intro v
    have guards : (Stmt.plainAlternatives alts).map (·.1) = alts.map (·.1) := by
      rw [Stmt.plainAlternatives_eq, List.map_map]
      rfl
    have bodies : (Stmt.plainAlternatives alts).map (fun a => a.2) =
        (alts.map fun a => a.2).map Stmt.plain := by
      simp [Stmt.plainAlternatives_eq, Function.comp_def]
    have inherits := hs (.altLoop span spec alts body) (by simp [Stmt.substmts])
    unfold lowerStmt
    rw [Stmt.plain]
    dsimp only
    rw [guards, bodies]
    refine BodyM.Follows.bind (R := LoopFrame.Relaxes (b.refinement.Spares c goals)) ?_
      fun l l' hl => ?_
    · cases body with
      | some s => exact LoopFrame.enter_follows b v span spec none [s] inherits
      | none => exact LoopFrame.enter_follows b v span spec none _ inherits
    refine LoopFrame.close_follows hl span spec ?_
    obtain ⟨ks, rfl, -⟩ := hl
    refine (forMSame fun e _ => define_steady l.view e).andThen fun _ => ?_
    refine (snapshot_steady (Naming.decreases l.number) l.current).inside.bind fun p p' hp => ?_
    obtain ⟨olds, before⟩ := p
    obtain ⟨olds', before'⟩ := p'
    obtain ⟨rfl, hbefore⟩ := hp
    refine (lowerAlternatives_follows l.view hbefore fun a ha => ih a ha fun t ht => hs t ?_).bind
      fun _ _ harms => (BodyM.Follows.add (relaxes_alternativesChoice harms _)).bind fun _ _ _ =>
      steady _
    simp [Stmt.substmts, Stmt.mem_substmtsAlternatives ha ht]
  | cases span e arms ih =>
    intro v
    rw [Stmt.plain, lowerStmt, lowerStmt]
    refine (define_steady v e).andThen fun _ => (ofExpr (matchedDatatype_has _)).andThen fun dt =>
      (ofExpr (.datatype dt)).andThen fun d => (ofExpr (lowerExpr_has e v)).andThen fun _ =>
      (temp_steady _ _).andThen fun s => ?_
    refine BodyM.Follows.bind (R := RelaxedBranches (b.refinement.Spares c goals))
      (.mapM (T := Eq) (List.forall₂_same.mpr fun _ _ => rfl) fun k _ hk => ?_)
      fun _ _ hbs => .add (relaxes_cascade hbs)
    subst hk
    rw [lowerArms_eq, lowerArms_eq, Stmt.plainArms_eq, List.map_map, List.find?_map, List.find?_map]
    dsimp only
    have pred : ((fun a : Pattern × BodyM Unit => a.1.ctor == k.name) ∘
          (fun a : Pattern × Source.Stmt => (a.1, b.plain.lowerStmt v a.2)) ∘
            fun a : Pattern × Source.Stmt => (a.1, a.2.plain)) =
        (fun a : Pattern × BodyM Unit => a.1.ctor == k.name) ∘ fun a => (a.1, b.lowerStmt v a.2) :=
      rfl
    rw [pred]
    cases hfind : arms.find? (_ ∘ fun a => (a.1, b.lowerStmt v a.2)) with
    | none => exact (steady _).bind fun _ _ h => .pure ⟨rfl, h ▸ .refl _⟩
    | some arm =>
      have harm := List.mem_of_find?_eq_some hfind
      refine BodyM.Follows.bind (.block ((bindPattern_steady d dt arm.1 s).andThen fun _ =>
        ih arm harm (fun t ht => hs t ?_) v)) fun _ _ hss => .pure ⟨rfl, hss⟩
      simp [Stmt.substmts, Stmt.mem_substmtsArms harm ht]
  | calculation span first steps ih =>
    intro v
    have lines : calcLines first (Stmt.plainSteps steps) = calcLines first steps := by
      rw [calcLines, Stmt.plainSteps_eq, List.map_map]
      rfl
    rw [Stmt.plain, lowerStmt, lowerStmt, lines]
    refine (define_steady v first).block.bind fun _ _ hopening => ?_
    refine (lowerSteps_follows v first fun a ha s hs' => ih a ha s hs' fun t ht => hs t ?_).bind
      fun _ _ hsteps => (ofExpr (.mapM fun e _ => canCall_has v e)).andThen fun _ =>
      .add (relaxes_calculation hopening hsteps _)
    simp [Stmt.substmts, Stmt.mem_substmtsSteps ha hs' ht]
  | forallAssign span d lhs e =>
    exact fun v => forallChoice_follows v d ((Target.ofLhs_steady v lhs).andThen fun _ =>
      (evalRhs_steady v _ _).andThen fun _ => assertInjective_steady v span d lhs e)
      (assignForall_steady v d lhs e)
  | forallCall span d m receiver args =>
    intro v
    refine BodyM.Follows.bind (BodyM.Follows.inside (R := fun a a' => a' = Method.plain a) ?_)
      fun p p' hp => ?_
    · refine (havocDomain_steady v d).andThen fun _ => .context ?_
      refine (ofDecl (.ofLookup (c.method_plain m))).bind fun callee _ hcallee => ?_
      subst hcallee
      show BodyM.Follows J _ c _ (if !callee.modifies.isEmpty then _ else _)
        (if !callee.modifies.isEmpty then _ else _)
      split
      · exact .ofDecl (.reject _)
      · exact (b.lowerCall_steady v span m receiver args []).bind fun _ _ _ => .pure rfl
    · obtain ⟨callee, checked⟩ := p
      obtain ⟨callee', checked'⟩ := p'
      obtain ⟨hcallee, hchecked⟩ := hp
      dsimp only at hcallee hchecked ⊢
      subst hcallee
      exact (forallEnsures_steady v d callee receiver args).block.bind fun _ _ hss =>
        .add (.single (.ifElse none (hchecked.append (.refl _)) hss))
  | forallProof span d ensures body ih =>
    intro v
    have claims : (ensures.map Spec.plain).map (·.expr) = ensures.map (·.expr) :=
      map_expr_plain ensures
    rw [Stmt.plain, lowerStmt, lowerStmt, claims]
    refine forallChoice_follows v d ((ih (fun t ht => hs t ?_) v).bind fun _ _ _ =>
      b.establish_follows v _ ensures fun s hs' hi hf => ?_)
      ((ofExpr (lowerTerms_has v _)).andThen fun _ => assumeForall_steady v d _)
    · simp [Stmt.substmts, ht]
    · exact hs (.forallProof span d ensures body) (by simp [Stmt.substmts]) _
        (mem_inheritedGoals hs' hi hf)
  | assert span e inherited =>
    refine fun v => (define_steady v e).andThen fun _ => b.assertGoal_follows v e inherited _
      fun hi => hs (.assert span e inherited) (by simp [Stmt.substmts]) e ?_
    simp [Stmt.ownInherited, hi]
  | assume span e => exact fun v => (value_steady v e).andThen fun _ => assume_steady _
  | ret span values =>
    exact fun v => (forMOption fun es => b.assignOuts_steady v es).andThen fun _ => addSame _
  | yield span values => exact fun v => b.lowerYield_follows v span values hb
  | leave span label => exact fun v => addSame _

end

end Body

end ContractLowering
