import ContractLowering.Lowering.Stmt
import ContractLowering.Proofs.Lowering.Emits
import ContractLowering.Proofs.Lowering.Split

/-!
# Lowering only adds to the state

`s.Extends s'` says that a state has grown: more is emitted and declared, more numbers are taken and
more locals collected, and the member that is being lowered is the same. It grows quietly
(`s.Grows s'`) if all that is emitted was asked for. Every computation that lowers a part of a member
is quiet whether or not it fails (`DeclM.Grows`). The computations on goals and loops that bodies are
made of follow; those that append statements are treated with what they append.
-/

namespace ContractLowering

open IL Source

namespace Progress

/-- A state that was reached from another one inside a member. -/
structure Extends (s s' : Progress) : Prop where
  emitted : s.emitted.rev <:+ s'.emitted.rev
  handles : s.handles <:+ s'.handles
  classes : s.classes <:+ s'.classes
  arrayLength : s.hasArrayLength = true → s'.hasArrayLength = true
  requested : s.requested <:+ s'.requested
  member : s'.decl.member = s.decl.member
  module : s'.decl.module = s.decl.module
  yieldCount : s'.decl.yieldCount = s.decl.yieldCount
  counter : s.decl.counter ≤ s'.decl.counter
  locals : s.decl.locals <+: s'.decl.locals
  clash : s'.decl.clash = none → s.decl.clash = none

variable {s s' s'' : Progress}

theorem Extends.refl (s : Progress) : s.Extends s :=
  ⟨List.suffix_refl _, List.suffix_refl _, List.suffix_refl _, id, List.suffix_refl _, rfl, rfl, rfl,
    Nat.le_refl _, List.prefix_refl _, id⟩

theorem Extends.trans (h : s.Extends s') (h' : s'.Extends s'') : s.Extends s'' where
  emitted := h.emitted.trans h'.emitted
  handles := h.handles.trans h'.handles
  classes := h.classes.trans h'.classes
  arrayLength := h'.arrayLength ∘ h.arrayLength
  requested := h.requested.trans h'.requested
  member := h'.member.trans h.member
  module := h'.module.trans h.module
  yieldCount := h'.yieldCount.trans h.yieldCount
  counter := Nat.le_trans h.counter h'.counter
  locals := h.locals.trans h'.locals
  clash := h.clash ∘ h'.clash

/-- A state of which only what is emitted and declared has grown. -/
theorem Extends.of_decl (hdecl : s'.decl = s.decl) (emitted : s.emitted.rev <:+ s'.emitted.rev)
    (handles : s.handles <:+ s'.handles) (classes : s.classes <:+ s'.classes)
    (arrayLength : s.hasArrayLength = true → s'.hasArrayLength = true)
    (requested : s.requested <:+ s'.requested) : s.Extends s' :=
  ⟨emitted, handles, classes, arrayLength, requested, by rw [hdecl], by rw [hdecl], by rw [hdecl],
    by rw [hdecl], hdecl ▸ List.prefix_refl _, by rw [hdecl]; exact id⟩

/-- A state of which only the declaration in progress has changed. -/
theorem Extends.of_locals {d : DeclState} (member : d.member = s.decl.member)
    (module : d.module = s.decl.module) (yieldCount : d.yieldCount = s.decl.yieldCount)
    (counter : s.decl.counter ≤ d.counter) (locals : s.decl.locals <+: d.locals)
    (clash : d.clash = none → s.decl.clash = none) : s.Extends { s with decl := d } :=
  ⟨List.suffix_refl _, List.suffix_refl _, List.suffix_refl _, id, List.suffix_refl _, member, module,
    yieldCount, counter, locals, clash⟩

theorem rev_extend (b : IL.ProgramBuilder) (ds : List IL.Decl) :
    (b.extend ds).rev = ds.reverse ++ b.rev := by
  induction ds generalizing b with
  | nil => rfl
  | cons d ds ih =>
    rw [IL.ProgramBuilder.extend, List.foldl_cons]
    exact (ih _).trans (by simp [IL.ProgramBuilder.push])

theorem extends_emit (s : Progress) (d : IL.Decl) : s.Extends (s.emit d) :=
  .of_decl rfl (List.suffix_cons _ _) (List.suffix_refl _) (List.suffix_refl _) id
    (List.suffix_refl _)

theorem extends_ask (s : Progress) (r : Request) : s.Extends (s.ask r) :=
  .of_decl rfl (List.suffix_refl _) (List.suffix_refl _) (List.suffix_refl _) id
    (List.suffix_cons _ _)

theorem extends_declareClass (s : Progress) (p : Path) : s.Extends (s.declareClass p) := by
  unfold declareClass
  split
  · exact .refl s
  · exact .of_decl rfl (List.suffix_cons _ _) (List.suffix_refl _) (List.suffix_cons _ _) id
      (List.suffix_refl _)

theorem extends_declareField (s : Progress) (f : Field) : s.Extends (s.declareField f) := by
  unfold declareField
  split
  · exact .refl s
  · have first : s.Extends
        (if f.isMutable then (s.ask (.cls f.id.owner)).declareClass f.id.owner else s) := by
      split
      · exact (s.extends_ask _).trans (extends_declareClass _ _)
      · exact .refl s
    refine first.trans (.of_decl rfl ?_ (List.suffix_cons _ _) (List.suffix_refl _) id
      (List.suffix_refl _))
    show _ <:+ (IL.ProgramBuilder.extend _ _).rev
    rw [rev_extend]
    exact List.suffix_append _ _

theorem extends_declare (s : Progress) (r : Request) : s.Extends (s.declare r) := by
  refine (s.extends_ask r).trans ?_
  cases r with
  | cls p => exact extends_declareClass _ p
  | field f => exact extends_declareField _ f
  | arrayLength =>
    show (s.ask .arrayLength).Extends (s.ask .arrayLength).declareArrayLength
    unfold declareArrayLength
    split
    · exact .refl _
    · exact .of_decl rfl (List.suffix_cons _ _) (List.suffix_refl _) (List.suffix_refl _)
        (fun _ => rfl) (List.suffix_refl _)

theorem extends_foldl_declare (s : Progress) (rs : List Request) :
    s.Extends (rs.foldl declare s) := by
  induction rs generalizing s with
  | nil => exact .refl s
  | cons r rs ih => exact (s.extends_declare r).trans (ih _)

theorem extends_declareLocal (s : Progress) (x : String) (srt : Srt) :
    s.Extends { s with decl := s.decl.declareLocal x srt } := by
  unfold DeclState.declareLocal
  split
  · exact .of_locals rfl rfl rfl (Nat.le_refl _) (List.prefix_append _ _) id
  · split
    · exact .refl s
    · exact .of_locals rfl rfl rfl (Nat.le_refl _) (List.prefix_refl _) nofun

/-! ### Quiet growth -/

/-- A state that was reached from another one inside a member and in which nothing was emitted but
what was asked for. -/
structure Grows (s s' : Progress) : Prop extends s.Extends s' where
  asked : ∃ (rs : List Request) (d : DeclState), s' = { rs.foldl declare s with decl := d }

/-- What is asked for does not depend on the declaration in progress. -/
theorem declare_decl (s : Progress) (d : DeclState) (r : Request) :
    ({ s with decl := d } : Progress).declare r = { s.declare r with decl := d } := by
  have cls (s : Progress) (p : Path) : ({ s with decl := d } : Progress).declareClass p =
      { s.declareClass p with decl := d } := by
    unfold declareClass
    dsimp only
    split <;> rfl
  cases r with
  | cls p => exact cls (s.ask _) p
  | field f =>
    show ({ s.ask (.field f) with decl := d } : Progress).declareField f =
      { (s.ask (.field f)).declareField f with decl := d }
    unfold declareField
    dsimp only
    split
    · rfl
    split
    · have h := cls ((s.ask (.field f)).ask (.cls f.id.owner)) f.id.owner
      simp only [ask] at h ⊢
      rw [h]
      rfl
    · rfl
  | arrayLength =>
    show ({ s.ask .arrayLength with decl := d } : Progress).declareArrayLength =
      { (s.ask .arrayLength).declareArrayLength with decl := d }
    unfold declareArrayLength
    dsimp only
    split <;> rfl

theorem foldl_declare_decl (s : Progress) (d : DeclState) (rs : List Request) :
    rs.foldl declare { s with decl := d } = { rs.foldl declare s with decl := d } := by
  induction rs generalizing s with
  | nil => rfl
  | cons r rs ih => rw [List.foldl_cons, declare_decl, ih, List.foldl_cons]

namespace Grows

theorem refl (s : Progress) : s.Grows s := ⟨.refl s, [], s.decl, rfl⟩

theorem trans (h : s.Grows s') (h' : s'.Grows s'') : s.Grows s'' := by
  obtain ⟨rs, d, rfl⟩ := h.asked
  obtain ⟨rs', d', hs''⟩ := h'.asked
  refine ⟨h.toExtends.trans h'.toExtends, rs ++ rs', d', ?_⟩
  rw [hs'', foldl_declare_decl, List.foldl_append]

/-- What an expression asks for is declared. -/
theorem declareAll (s : Progress) (rs : List Request) : s.Grows (rs.foldl declare s) :=
  ⟨s.extends_foldl_declare rs, rs, (rs.foldl declare s).decl, rfl⟩

/-- Only the declaration in progress has changed. -/
theorem of_extends {d : DeclState} (h : s.Extends { s with decl := d }) :
    s.Grows { s with decl := d } :=
  ⟨h, [], d, rfl⟩

end Grows

end Progress

namespace DeclM

variable {α β : Type}

section

variable {c : Context} {s s' : Progress}

theorem gives_emit {d : IL.Decl} {u : Unit} : (emit d).Gives c s u s' ↔ s' = s.emit d := by
  simp [Gives, emit, update, eq_comm]

theorem gives_takeLocals {locals : List IL.Binder} :
    takeLocals.Gives c s locals s' ↔ s.decl.clash = none ∧ locals = s.decl.locals ∧
      s' = { s with decl := { s.decl with locals := [], clash := none } } := by
  unfold Gives takeLocals
  cases s.decl.clash <;> simp [eq_comm]

/-- A declaration is lowered in a state of its own. -/
theorem gives_within {span : Span} {module : String} {member : Option Path} {x : DeclM α} {a : α} :
    (within span module member x).Gives c s a s' ↔
      ∃ t, s.decl.inProgress = false ∧ x.Gives c
        { s with decl := { inProgress := true, module := some module, member } } a t ∧
        s' = t.leave := by
  unfold Gives within Progress.enter
  cases s.decl.inProgress
  · simp [Prod.ext_iff, eq_comm]
  · simp

end

/-- A computation that, whether or not it fails, adds to the state and emits only what is asked
for. -/
def Grows (x : DeclM α) : Prop := ∀ (c : Context) (s : Progress), s.Grows (x c s).2

namespace Grows

theorem of_gives {c : Context} {s s' : Progress} {x : DeclM α} {a : α} (hx : x.Grows)
    (h : x.Gives c s a s') : s.Grows s' := by
  have grown := hx c s
  rwa [show x c s = _ from h] at grown

/-- A computation that gives a value extends the state it starts from. -/
theorem extends_of_gives {c : Context} {s s' : Progress} {x : DeclM α} {a : α} (hx : x.Grows)
    (h : x.Gives c s a s') : s.Extends s' :=
  (hx.of_gives h).toExtends

theorem pure (a : α) : (Pure.pure a : DeclM α).Grows := fun _ s => .refl s

theorem bind {x : DeclM α} {f : α → DeclM β} (hx : x.Grows) (hf : ∀ a, (f a).Grows) :
    (x >>= f).Grows := by
  intro c s
  have first := hx c s
  show s.Grows (seq x f c s).2
  unfold seq
  generalize x c s = out at first ⊢
  rcases out with ⟨_ | a, s₁⟩
  · exact first
  · exact first.trans (hf a c s₁)

theorem ofExpr (x : ExprM α) : (DeclM.ofExpr x).Grows := fun _ s => .declareAll s _

theorem context : DeclM.context.Grows := fun _ s => .refl s

theorem state : DeclM.state.Grows := fun _ s => .refl s

theorem reject (m : Message) : (DeclM.reject m : DeclM α).Grows := fun _ s => .refl s

theorem freshId : DeclM.freshId.Grows := fun _ _ =>
  .of_extends (.of_locals rfl rfl rfl (Nat.le_succ _) (List.prefix_refl _) id)

theorem declareLocal (x : String) (srt : Srt) : (DeclM.declareLocal x srt).Grows := fun _ s =>
  .of_extends (s.extends_declareLocal x srt)

theorem mapM {f : α → DeclM β} {l : List α} (hf : ∀ a ∈ l, (f a).Grows) :
    (l.mapM f).Grows := by
  induction l with
  | nil => exact pure _
  | cons a l ih =>
    rw [List.mapM_cons]
    exact bind (hf a (by simp)) fun _ => bind (ih fun b hb => hf b (by simp [hb])) fun _ => pure _

end Grows

end DeclM

open DeclM.Grows (ofExpr)

theorem quantifierObligations_grows (v : View) (span : Span) (bs vars : List Source.Binder)
    (r : Option Source.Expr) (body : Source.Expr) :
    (quantifierObligations v span bs vars r body).Grows := by
  have hypothesis (goal : Subst → ExprM IL.Expr) :
      (Induction.hypothesis v span bs vars goal).Grows :=
    .bind .freshId fun _ => .bind (ofExpr _) fun _ => .bind (ofExpr _) fun _ => .pure _
  exact .bind (hypothesis _) fun _ => .bind (ofExpr _) fun _ => .bind (ofExpr _) fun _ =>
    .bind (ofExpr _) fun _ => .pure _

theorem splitGoal_grows (v : View) (height fuel : Nat) (induct : Bool) (goal : Source.Expr) :
    (splitGoal v height fuel induct goal).Grows := by
  fun_induction splitGoal v height fuel induct goal with
  | case1 height fuel induct i a b iha ihb => exact .bind iha fun _ => .bind ihb fun _ => .pure _
  | case2 height fuel induct i a b ihb | case3 height fuel induct i a b ihb =>
    exact .bind (ofExpr _) fun _ => .bind ihb fun _ => .pure _
  | case4 height fuel induct i t a b iha ihb =>
    exact .bind (ofExpr _) fun _ => .bind iha fun _ => .bind ihb fun _ => .pure _
  | case5 height fuel induct i bs body ih =>
    exact .bind (ofExpr _) fun _ => .bind ih fun _ => .pure _
  | case6 height fuel induct i bs r body ts attr ih =>
    rw [← splitGoal, splitGoal_all]
    refine .bind (ofExpr _) fun _ => .bind (ofExpr _) fun _ => .bind .context fun _ =>
      .bind (ofExpr _) fun _ => .bind (ofExpr _) fun vars => ?_
    split
    · exact .bind ih fun _ => .pure _
    · exact .bind (quantifierObligations_grows v i.span bs vars r body) fun _ =>
        .bind (ofExpr _) fun _ => .pure _
  | case7 => exact .bind (ofExpr _) fun _ => .pure _
  | case8 fuel induct i f receiver args lower ihlower ihless =>
    refine .bind (ofExpr _) fun callee => .bind (ofExpr _) fun call =>
      .bind (ofExpr _) fun opened => ?_
    cases opened with
    | none => exact .pure _
    | some body =>
      refine .bind (ofExpr _) fun _ => .bind (ofExpr _) fun _ => .bind (ofExpr _) fun recursive => ?_
      dsimp only
      split
      · exact .bind .context fun c => .bind (ihlower body c) fun _ => .pure _
      · cases fuel with
        | zero => exact .pure _
        | succ less => exact .bind (ihless body) fun _ => .pure _
  | case9 => exact .bind (ofExpr _) fun _ => .pure _

theorem split_grows (v : View) (goal : Source.Expr) (induct : Bool) :
    (split v goal induct).Grows :=
  .bind .context fun _ => splitGoal_grows v _ _ induct goal

theorem forallLocation_grows (v : View) (lhs : Lhs) : (forallLocation v lhs).Grows := by
  cases lhs with
  | field =>
    exact .bind (ofExpr _) fun _ => .bind (ofExpr _) fun _ => .bind (ofExpr _) fun _ => .pure _
  | index =>
    exact .bind (ofExpr _) fun _ => .bind (ofExpr _) fun _ => .bind (ofExpr _) fun _ => .pure _
  | var | range => exact .reject _

theorem resultLocals_grows (outs : List Source.Binder) : (resultLocals outs).Grows :=
  .mapM fun _ _ => .bind .freshId fun _ => .bind (.declareLocal _ _) fun _ => .pure _

namespace LoopFrame

theorem invariant_grows (b : Body) (v : View) (witness : IL.Expr) (inv : Spec) :
    (invariant b v witness inv).Grows :=
  .bind .context fun _ => .bind (ofExpr _) fun _ => .bind (ofExpr _) fun _ =>
    .bind (ofExpr _) fun _ => .pure _

theorem kept_grows (v : View) (preHeap : IL.Expr) (assigned : List Source.Binder) :
    (kept v preHeap assigned).Grows :=
  .bind (.mapM fun _ _ => ofExpr _) fun _ => .pure _

end LoopFrame

end ContractLowering
