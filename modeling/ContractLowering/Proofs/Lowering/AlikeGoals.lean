import ContractLowering.Proofs.Lowering.AlikeChecks
import ContractLowering.Proofs.Lowering.Emits
import ContractLowering.Proofs.Lowering.Split

/-!
# Goals and chosen triggers

Two runs that lower declarations, of which only the first chooses triggers, stay in step: whatever
has been emitted differs in triggers at most, and fresh numbers, locals, declared fields and
classes are the same.
-/

namespace ContractLowering

open IL Source

/-! ## Computations -/

/-- The state without triggers. -/
def Progress.erase (s : Progress) : Progress := { s with emitted := s.emitted.erase }

namespace Progress

variable {s s' : Progress}

/-- States that differ in triggers differ in what they emitted only. -/
theorem exists_of_erase (h : s.erase = s'.erase) :
    ∃ e, s' = { s with emitted := e } ∧ s.emitted.erase = e.erase := by
  obtain ⟨e, hs, cs, al, rs, d⟩ := s
  obtain ⟨e', hs', cs', al', rs', d'⟩ := s'
  simp only [erase, mk.injEq] at h
  obtain ⟨he, rfl, rfl, rfl, rfl, rfl⟩ := h
  exact ⟨e', rfl, he⟩

theorem emit_erase (h : s.erase = s'.erase) {d d' : IL.Decl} (hd : d.erase = d'.erase) :
    (s.emit d).erase = (s'.emit d').erase := by
  obtain ⟨e, rfl, he⟩ := exists_of_erase h
  simp [erase, emit, he, hd]

theorem ask_erase (h : s.erase = s'.erase) (r : Request) : (s.ask r).erase = (s'.ask r).erase := by
  obtain ⟨e, rfl, he⟩ := exists_of_erase h
  simp [erase, ask, he]

theorem declareClass_erase (h : s.erase = s'.erase) (p : Path) :
    (s.declareClass p).erase = (s'.declareClass p).erase := by
  obtain ⟨e, rfl, he⟩ := exists_of_erase h
  unfold declareClass
  dsimp only
  split <;> simp [erase, emit, he]

theorem declareField_erase (h : s.erase = s'.erase) (f : Field) :
    (s.declareField f).erase = (s'.declareField f).erase := by
  -- What is declared after the class of the field.
  have declared {t t' : Progress} (ht : t.erase = t'.erase) (hs : List FieldHandle) :
      ({ t.emitAll (Request.fieldDecls f) with handles := hs } : Progress).erase =
        ({ t'.emitAll (Request.fieldDecls f) with handles := hs } : Progress).erase := by
    obtain ⟨e, rfl, he⟩ := exists_of_erase ht
    simp [erase, emitAll, he]
  obtain ⟨e, rfl, he⟩ := exists_of_erase h
  unfold declareField
  dsimp only
  split
  · exact h
  · split
    · have hc := declareClass_erase (ask_erase h (.cls f.id.owner)) f.id.owner
      simp only [handles_declareClass, handles_ask]
      exact declared hc _
    · exact declared h _

theorem declare_erase (h : s.erase = s'.erase) (r : Request) :
    (s.declare r).erase = (s'.declare r).erase := by
  have asked := ask_erase h r
  cases r with
  | cls p => exact declareClass_erase asked p
  | field f => exact declareField_erase asked f
  | arrayLength =>
    obtain ⟨e, rfl, he⟩ := exists_of_erase h
    unfold declare declareArrayLength ask
    dsimp only
    split <;> simp [erase, emit, he]

theorem foldl_declare_erase (h : s.erase = s'.erase) (rs : List Request) :
    (rs.foldl declare s).erase = (rs.foldl declare s').erase := by
  induction rs generalizing s s' with
  | nil => exact h
  | cons r rs ih => exact ih (declare_erase h r)

end Progress

namespace DeclM

variable {α β γ δ : Type} {h : α → β} {k : γ → δ}

/-- Two computations that give the same up to what `h` forgets and leave states that differ in
triggers only, where the first one chooses triggers and the second does not. -/
def Alike (h : α → β) (x y : DeclM α) : Prop :=
  ∀ (c : Context) {s s' : Progress}, s.erase = s'.erase →
    (x (c.hinted true) s).1.map h = (y (c.hinted false) s').1.map h ∧
      (x (c.hinted true) s).2.erase = (y (c.hinted false) s').2.erase

namespace Alike

theorem bind {x y : DeclM α} {f g : α → DeclM γ} (hx : Alike h x y)
    (hf : ∀ a b, h a = h b → Alike k (f a) (g b)) : Alike k (x >>= f) (y >>= g) := by
  intro c s s' hs
  obtain ⟨hr, hs₁⟩ := hx c hs
  show (seq x f _ s).1.map k = (seq y g _ s').1.map k ∧ (seq x f _ s).2.erase = (seq y g _ s').2.erase
  unfold seq
  rcases hxe : x (c.hinted true) s with ⟨e | a, s₁⟩ <;>
    rcases hye : y (c.hinted false) s' with ⟨e' | a', s₁'⟩ <;>
    simp only [hxe, hye, Except.map] at hr hs₁
  · cases hr
    exact ⟨rfl, hs₁⟩
  · cases hr
  · cases hr
  · exact hf a a' (Except.ok.inj hr) c hs₁

theorem pure {a b : α} (hab : h a = h b) : Alike h (Pure.pure a) (Pure.pure b) :=
  fun _ _ _ hs => ⟨congrArg Except.ok hab, hs⟩

theorem ofExpr {x y : ExprM α} (hx : ExprM.Alike h x y) :
    Alike h (DeclM.ofExpr x) (DeclM.ofExpr y) := by
  intro c s s' hs
  obtain ⟨e, rfl, he⟩ := Progress.exists_of_erase hs
  obtain ⟨hr, hv⟩ := hx (s.env c)
  have hmap (r : Except Broken α) :
      (r.mapError Fault.broken).map h = (r.map h).mapError Fault.broken := by
    cases r <;> rfl
  refine ⟨?_, ?_⟩
  · show ((x ((s.env c).hinted true)).result.mapError Fault.broken).map h =
      ((y ((s.env c).hinted false)).result.mapError Fault.broken).map h
    rw [hmap, hmap, hv]
  · show ((x ((s.env c).hinted true)).requests.foldl Progress.declare s).erase =
      ((y ((s.env c).hinted false)).requests.foldl Progress.declare _).erase
    rw [hr]
    exact Progress.foldl_declare_erase hs _

/-- A first computation whose result does not depend on triggers. -/
theorem bind_id {x y : DeclM α} {f g : α → DeclM γ} (hx : Alike id x y)
    (hf : ∀ a, Alike k (f a) (g a)) : Alike k (x >>= f) (y >>= g) :=
  bind hx fun a b (hab : a = b) => hab ▸ hf a

/-- A computation that reads the context. -/
theorem bind_context {f g : Context → DeclM γ}
    (hf : ∀ c : Context, Alike k (f (c.hinted true)) (g (c.hinted false))) :
    Alike k (DeclM.context >>= f) (DeclM.context >>= g) :=
  fun c _ _ hs => hf c c hs

/-- A computation that reads the declaration that is being lowered. -/
theorem bind_state {f g : Progress → DeclM γ}
    (hf : ∀ s s' : Progress, s.erase = s'.erase → Alike k (f s) (g s')) :
    Alike k (DeclM.state >>= f) (DeclM.state >>= g) :=
  fun c _ _ hs => hf _ _ hs c hs

theorem reject (m : Message) : Alike h (DeclM.reject m) (DeclM.reject m) :=
  fun _ _ _ hs => ⟨rfl, hs⟩

theorem emit {d d' : IL.Decl} (hd : d.erase = d'.erase) :
    Alike id (DeclM.emit d) (DeclM.emit d') :=
  fun _ _ _ hs => ⟨rfl, Progress.emit_erase hs hd⟩

theorem emitFact {e e' : IL.Expr} (he : e.erase = e'.erase) :
    Alike id (DeclM.emitFact e) (DeclM.emitFact e') :=
  emit (congrArg (IL.Decl.fact none) he)

theorem freshId : Alike id DeclM.freshId DeclM.freshId := by
  intro c s s' hs
  obtain ⟨e, rfl, he⟩ := Progress.exists_of_erase hs
  exact ⟨rfl, by simp [DeclM.freshId, Progress.freshId, Progress.erase, he]⟩

theorem declareLocal (x : String) (sort : Srt) :
    Alike id (DeclM.declareLocal x sort) (DeclM.declareLocal x sort) := by
  intro c s s' hs
  obtain ⟨e, rfl, he⟩ := Progress.exists_of_erase hs
  exact ⟨rfl, by simp [DeclM.declareLocal, DeclM.update, Progress.erase, he]⟩

theorem setYieldCount (x : String) :
    Alike id (DeclM.setYieldCount x) (DeclM.setYieldCount x) := by
  intro c s s' hs
  obtain ⟨e, rfl, he⟩ := Progress.exists_of_erase hs
  exact ⟨rfl, by simp [DeclM.setYieldCount, DeclM.update, Progress.erase, he]⟩

theorem takeLocals : Alike id DeclM.takeLocals DeclM.takeLocals := by
  intro c s s' hs
  obtain ⟨e, rfl, he⟩ := Progress.exists_of_erase hs
  unfold DeclM.takeLocals
  dsimp only
  split <;> exact ⟨rfl, by simp [Progress.erase, he]⟩

theorem within {x y : DeclM α} (hx : Alike h x y) (span : Span) (module : String)
    (member : Option Path) :
    Alike h (DeclM.within span module member x) (DeclM.within span module member y) := by
  intro c s s' hs
  obtain ⟨e, rfl, he⟩ := Progress.exists_of_erase hs
  unfold DeclM.within Progress.enter
  cases hp : s.decl.inProgress with
  | true => exact ⟨by simp, by simpa [hp] using hs⟩
  | false =>
    let entered : DeclState := { inProgress := true, module := some module, member }
    have started : ({ s with decl := entered } : Progress).erase =
        ({ s with emitted := e, decl := entered } : Progress).erase := by
      simp [Progress.erase, he]
    obtain ⟨hr, hleft⟩ := hx c started
    refine ⟨by simpa [hp] using hr, ?_⟩
    simp only [Bool.false_eq_true, if_false]
    exact congrArg Progress.leave hleft

theorem mapM {f g : α → DeclM γ} {l : List α} (hf : ∀ a ∈ l, Alike k (f a) (g a)) :
    Alike (List.map k) (l.mapM f) (l.mapM g) := by
  induction l with
  | nil => exact pure rfl
  | cons a l ih =>
    rw [List.mapM_cons, List.mapM_cons]
    refine bind (hf a (by simp)) fun b b' hb => ?_
    exact bind (ih fun a ha => hf a (by simp [ha])) fun bs bs' hbs => pure (by simp [hb, hbs])

theorem forM {f g : α → DeclM Unit} {l : List α} (hf : ∀ a ∈ l, Alike id (f a) (g a)) :
    Alike id (l.forM f) (l.forM g) := by
  induction l with
  | nil => exact pure rfl
  | cons a l ih => exact bind_id (hf a (by simp)) fun _ => ih fun a ha => hf a (by simp [ha])

theorem forM_option {f g : α → DeclM Unit} {o : Option α} (hf : ∀ a, Alike id (f a) (g a)) :
    Alike id (o.forM f) (o.forM g) := by
  cases o with
  | none => exact pure rfl
  | some a => exact hf a

/-- A fact that there may be. -/
theorem emitFact? {o o' : Option IL.Expr} (ho : o.map IL.Expr.erase = o'.map IL.Expr.erase) :
    Alike id (o.forM DeclM.emitFact) (o'.forM DeclM.emitFact) := by
  cases o <;> cases o' <;> simp at ho
  · exact pure rfl
  · exact emitFact ho

/-- A step that is not always taken, before the rest. -/
theorem optional {p : Prop} [Decidable p] {x x' y y' : DeclM α} (rest : Alike h y y')
    (step : Alike h y y' → Alike h x x') :
    Alike h (if p then x else y) (if p then x' else y') := by
  split
  · exact step rest
  · exact rest

end Alike

end DeclM

namespace BodyM

variable {α β γ δ π : Type} {h : α → β} {k : γ → δ}

/-- Two computations that give the same up to what `h` forgets and append statements that differ in
triggers only. -/
def Alike (h : α → β) (x y : BodyM α) : Prop :=
  DeclM.Alike (Prod.map h (List.map Stmt.erase)) x.run y.run

namespace Alike

theorem bind {x y : BodyM α} {f g : α → BodyM γ} (hx : Alike h x y)
    (hf : ∀ a b, h a = h b → Alike k (f a) (g b)) : Alike k (x >>= f) (y >>= g) := by
  refine DeclM.Alike.bind hx fun a b hab => ?_
  obtain ⟨hv, hss⟩ := Prod.mk.inj hab
  refine DeclM.Alike.bind (hf a.1 b.1 hv) fun a' b' hab' => .pure ?_
  obtain ⟨hv', hss'⟩ := Prod.mk.inj hab'
  simp [hv', hss, hss']

theorem pure {a b : α} (hab : h a = h b) : Alike h (Pure.pure a) (Pure.pure b) :=
  DeclM.Alike.pure (by simp [hab])

theorem bind_id {x y : BodyM α} {f g : α → BodyM γ} (hx : Alike id x y)
    (hf : ∀ a, Alike k (f a) (g a)) : Alike k (x >>= f) (y >>= g) :=
  bind hx fun a b (hab : a = b) => hab ▸ hf a

theorem ofDecl {x y : DeclM α} (hx : DeclM.Alike h x y) :
    Alike h (BodyM.ofDecl x) (BodyM.ofDecl y) :=
  DeclM.Alike.bind hx fun a b hab => .pure (by simp [hab])

theorem ofExpr {x y : ExprM α} (hx : ExprM.Alike h x y) :
    Alike h (BodyM.ofDecl (DeclM.ofExpr x)) (BodyM.ofDecl (DeclM.ofExpr y)) :=
  ofDecl (.ofExpr hx)

theorem add {ss ss' : List IL.Stmt} (hss : ss.map Stmt.erase = ss'.map Stmt.erase) :
    Alike id (BodyM.add ss) (BodyM.add ss') :=
  DeclM.Alike.pure (by simp [hss])

theorem inside {x y : BodyM α} (hx : Alike h x y) :
    Alike (Prod.map h (List.map Stmt.erase)) (BodyM.inside x) (BodyM.inside y) :=
  ofDecl hx

theorem block {x y : BodyM Unit} (hx : Alike id x y) :
    Alike (List.map Stmt.erase) (BodyM.block x) (BodyM.block y) :=
  (inside hx).bind fun _ _ hab => pure (Prod.mk.inj hab).2

theorem mapM {f g : α → BodyM γ} {l l' : List α} {p : α → π} (hl : l.map p = l'.map p)
    (hf : ∀ a b, p a = p b → Alike k (f a) (g b)) :
    Alike (List.map k) (l.mapM f) (l'.mapM g) := by
  induction l generalizing l' with
  | nil =>
    obtain rfl : l' = [] := by simpa using hl.symm
    exact pure rfl
  | cons a l ih =>
    cases l' with
    | nil => simp at hl
    | cons a' l' =>
      obtain ⟨ha, hl⟩ := List.cons.inj hl
      rw [List.mapM_cons, List.mapM_cons]
      refine bind (hf a a' ha) fun b b' hb => ?_
      exact bind (ih hl) fun bs bs' hbs => pure (by simp [hb, hbs])

theorem forM {f g : α → BodyM Unit} {l l' : List α} {p : α → π} (hl : l.map p = l'.map p)
    (hf : ∀ a b, p a = p b → Alike id (f a) (g b)) : Alike id (l.forM f) (l'.forM g) := by
  induction l generalizing l' with
  | nil =>
    obtain rfl : l' = [] := by simpa using hl.symm
    exact pure rfl
  | cons a l ih =>
    cases l' with
    | nil => simp at hl
    | cons a' l' =>
      obtain ⟨ha, hl⟩ := List.cons.inj hl
      exact bind_id (hf a a' ha) fun _ => ih hl

end Alike

end BodyM

/-! ## Goals -/

/-- The part of a goal without triggers. -/
def GoalPart.erase (p : GoalPart) : GoalPart := { p with expr := p.expr.erase }

@[simp] theorem GoalPart.erase_mk (kind : PartKind) (e : IL.Expr) (span : Span) :
    (⟨kind, e, span⟩ : GoalPart).erase = ⟨kind, e.erase, span⟩ := rfl

theorem GoalPart.wrapAll_erase {F G : IL.Expr → IL.Expr} {ps ps' : List GoalPart}
    (hps : ps.map erase = ps'.map erase)
    (h : ∀ a a' : IL.Expr, a.erase = a'.erase → (F a).erase = (G a').erase) :
    (wrapAll F ps).map erase = (wrapAll G ps').map erase := by
  induction ps generalizing ps' with
  | nil =>
    obtain rfl : ps' = [] := by simpa using hps.symm
    rfl
  | cons p ps ih =>
    cases ps' with
    | nil => simp at hps
    | cons p' ps' =>
      obtain ⟨hp, htail⟩ := List.cons.inj hps
      obtain ⟨kind, e, span⟩ := p
      obtain ⟨kind', e', span'⟩ := p'
      simp only [erase_mk, mk.injEq] at hp
      obtain ⟨rfl, he, rfl⟩ := hp
      have := ih htail
      simp only [wrapAll, List.map_cons, List.cons.injEq] at this ⊢
      exact ⟨by simp [h e e' he], this⟩

theorem GoalPart.map_erase_filter (q : PartKind → Bool) (ps : List GoalPart) :
    (ps.filter fun p => q p.kind).map erase = (ps.map erase).filter fun p => q p.kind := by
  rw [List.filter_map]
  rfl

theorem GoalPart.atCall_erase (span : Span) {ps ps' : List GoalPart}
    (hps : ps.map erase = ps'.map erase) :
    (atCall span ps).map erase = (atCall span ps').map erase := by
  have (ps : List GoalPart) : (atCall span ps).map erase = atCall span (ps.map erase) := by
    simp only [atCall, List.map_map, List.filter_map]
    rfl
  rw [this, this, hps]

namespace Induction

open DeclM

theorem hypothesis_alike (v : View) (span : Span) (binders vars : List Source.Binder)
    {goal : Subst → ExprM IL.Expr} (hgoal : ∀ s, ExprM.Alike IL.Expr.erase (goal s) (goal s)) :
    Alike IL.Expr.erase (hypothesis v span binders vars goal)
      (hypothesis v span binders vars goal) := by
  refine Alike.freshId.bind_id fun n => ?_
  refine (Alike.ofExpr (bindersWhere_alike _ _)).bind fun w w' hw => ?_
  exact (Alike.ofExpr (hgoal _)).bind fun g g' hg => .pure (by simp [hw, hg])

theorem caseSplit_alike (vars : List Source.Binder) :
    ExprM.Alike (List.map IL.Expr.erase) (caseSplit vars) (caseSplit vars) := by
  fun_induction caseSplit vars with
  | case1 => exact .pure rfl
  | case2 => exact (ExprM.Alike.datatype _).bind_id fun d => .pure rfl
  | case3 _ _ _ ih => exact ih

theorem candidates_alike (level : Nat) (es : List Source.Expr) :
    ExprM.Alike id (candidates level es) (candidates level es) := by
  refine .of_eq fun env => ?_
  rcases level with _ | _ | _ | level <;> rfl

end Induction

theorem inductionVars_alike (attr : Induction) (bs : List Source.Binder) (es : List Source.Expr) :
    ExprM.Alike id (inductionVars attr bs es) (inductionVars attr bs es) := by
  cases attr with
  | off | vars => exact .pure rfl
  | default =>
    refine ExprM.Alike.bind_env fun env => ?_
    exact (Induction.candidates_alike env.context.options.induction es).bind_id fun _ => .pure rfl

theorem selectedVars_alike (induct : Bool) (attr : Induction) (bs : List Source.Binder)
    (es : List Source.Expr) :
    ExprM.Alike id (selectedVars induct attr bs es) (selectedVars induct attr bs es) := by
  cases induct with
  | true => exact inductionVars_alike attr bs es
  | false => exact .pure rfl

theorem quantifierGoal_alike (v : View) (range : Option Source.Expr) (body : Source.Expr)
    (s : Subst) :
    ExprM.Alike IL.Expr.erase (quantifierGoal v range body s) (quantifierGoal v range body s) := by
  refine (lowerExpr_alike (body.subst s) v).bind fun b b' hb => ?_
  cases range with
  | none => exact .pure hb
  | some r => exact (lowerExpr_alike (r.subst s) v).bind fun x x' hx => .pure (by simp [hx, hb])

theorem quantifierObligations_alike (v : View) (span : Span) (binders vars : List Source.Binder)
    (range : Option Source.Expr) (body : Source.Expr) :
    DeclM.Alike (List.map IL.Expr.erase) (quantifierObligations v span binders vars range body)
      (quantifierObligations v span binders vars range body) := by
  refine (Induction.hypothesis_alike v span binders vars (quantifierGoal_alike v range body)).bind
    fun ih ih' hih => ?_
  refine (DeclM.Alike.ofExpr (quantifierGoal_alike v range body {})).bind fun g g' hg => ?_
  refine (DeclM.Alike.ofExpr (bindersWhere_alike v.heap binders)).bind fun w w' hw => ?_
  refine (DeclM.Alike.ofExpr (Induction.caseSplit_alike vars)).bind fun cs cs' hcs => .pure ?_
  have (cs : List IL.Expr) (w ih g : IL.Expr) :
      (cs.map fun c => IL.Expr.all (sortBinders binders) [] (.imp (.conj [w, c, ih]) g)).map
          IL.Expr.erase = (cs.map IL.Expr.erase).map fun c =>
            .all (sortBinders binders) [] (.imp (.conj [w.erase, c, ih.erase]) g.erase) := by
    simp [Function.comp_def]
  rw [this, this, hcs, hw, hih, hg]

theorem lemmaHypothesis_alike (v : View) (span : Span) (ins vars : List Source.Binder)
    (requires ensures : List Source.Expr) :
    DeclM.Alike IL.Expr.erase (lemmaHypothesis v span ins vars requires ensures)
      (lemmaHypothesis v span ins vars requires ensures) := by
  refine Induction.hypothesis_alike v span ins vars fun s => ?_
  refine (ExprM.Alike.mapM fun e _ => lowerExpr_alike (e.subst s) v).bind fun pre pre' hpre => ?_
  exact (ExprM.Alike.mapM fun e _ => lowerExpr_alike (e.subst s) v).bind fun post post' hpost =>
    .pure (by simp [hpre, hpost])

theorem openedBody?_alike (f : Function) (receiver : Option Source.Expr)
    (args : List Source.Expr) :
    ExprM.Alike id (openedBody? f receiver args) (openedBody? f receiver args) := by
  refine (ExprM.Alike.isSameModule f.name).bind_id fun same => ?_
  split
  · exact .pure rfl
  · split <;> exact .pure rfl

theorem splitGoal_alike (v : View) (height fuel : Nat) (induct : Bool) (goal : Source.Expr) :
    DeclM.Alike (List.map GoalPart.erase) (splitGoal v height fuel induct goal)
      (splitGoal v height fuel induct goal) := by
  have whole (e : Source.Expr) := DeclM.Alike.ofExpr (lowerExpr_alike e v)
  fun_induction splitGoal v height fuel induct goal with
  | case1 height fuel induct i a b iha ihb =>
    exact iha.bind fun ps ps' hps => ihb.bind fun qs qs' hqs => .pure (by simp [hps, hqs])
  | case2 height fuel induct i a b ihb =>
    refine (whole a).bind fun x x' hx => ihb.bind fun ps ps' hps => .pure ?_
    exact GoalPart.wrapAll_erase hps fun p p' hp => by simp [hx, hp]
  | case3 height fuel induct i a b ihb =>
    refine (whole a).bind fun x x' hx => ihb.bind fun ps ps' hps => .pure ?_
    exact GoalPart.wrapAll_erase hps fun p p' hp => by simp [hx, hp]
  | case4 height fuel induct i c a b iha ihb =>
    refine (whole c).bind fun x x' hx => iha.bind fun ps ps' hps => ihb.bind fun qs qs' hqs => ?_
    refine .pure ?_
    rw [List.map_append, List.map_append,
      GoalPart.wrapAll_erase (F := .imp x) (G := .imp x') hps fun p p' hp => by simp [hx, hp],
      GoalPart.wrapAll_erase (F := .imp x.neg) (G := .imp x'.neg) hqs
        fun p p' hp => by simp [hx, hp]]
  | case5 height fuel induct i bs body ih =>
    refine (DeclM.Alike.ofExpr (lowerBindings_alike v fun b _ => lowerExpr_alike b.2)).bind
      fun as as' has => ih.bind fun ps ps' hps => .pure ?_
    exact GoalPart.wrapAll_erase hps fun p p' hp => by simp [has, hp]
  | case6 height fuel induct i bs r body ts attr ih =>
    rw [← splitGoal, splitGoal_all]
    refine (DeclM.Alike.ofExpr (bindersWhere_alike v.heap bs)).bind fun w w' hw => ?_
    refine (DeclM.Alike.ofExpr (lowerExpr?_alike v fun e _ => lowerExpr_alike e)).bind
      fun u u' hu => .bind_context fun c => ?_
    refine (DeclM.Alike.ofExpr (lowerTriggers_alike v fun _ _ e _ => lowerExpr_alike e)).bind
      fun _ _ _ => ?_
    refine (DeclM.Alike.ofExpr (selectedVars_alike induct attr bs _)).bind_id fun vars => ?_
    split
    · refine ih.bind fun ps ps' hps => .pure (GoalPart.wrapAll_erase hps fun p p' hp => ?_)
      cases u <;> cases u' <;> simp at hu <;> simp [hw, hu, hp]
    · refine (quantifierObligations_alike v i.span bs vars r body).bind fun os os' hos => ?_
      refine (whole _).bind fun g g' hg => .pure ?_
      have (os : List IL.Expr) :
          (os.map (⟨.checked, ·, i.span⟩ : IL.Expr → GoalPart)).map GoalPart.erase =
            (os.map IL.Expr.erase).map (⟨.checked, ·, i.span⟩) := by
        simp [Function.comp_def]
      rw [List.map_append, List.map_append, this, this, hos]
      simp [hg]
  | case7 => exact (whole _).bind fun x x' hx => .pure (by simp [hx])
  | case8 fuel induct i f receiver args lower ihlower ihless =>
    refine (DeclM.Alike.ofExpr (ExprM.Alike.function f)).bind_id fun callee => ?_
    refine (whole _).bind fun x x' hx => ?_
    refine (DeclM.Alike.ofExpr (openedBody?_alike callee receiver args)).bind_id fun o => ?_
    cases o with
    | none => exact .pure (by simp [hx])
    | some body =>
      refine (DeclM.Alike.ofExpr (lowerCallArgs_alike v f receiver args)).bind fun as as' has => ?_
      refine (whole body).bind fun y y' hy => ?_
      refine (DeclM.Alike.ofExpr (ExprM.Alike.isRecursive f)).bind_id fun recursive => ?_
      -- What an opened call gives, for any parts of its body.
      have parts {ps ps' : List GoalPart} (hps : ps.map GoalPart.erase = ps'.map GoalPart.erase) :
          (GoalPart.mk .free x i.span ::
            ⟨.free, .imp (.app (Naming.layered f .canCall) as) y, i.span⟩ ::
              GoalPart.atCall i.span ps).map GoalPart.erase =
          (GoalPart.mk .free x' i.span ::
            ⟨.free, .imp (.app (Naming.layered f .canCall) as') y', i.span⟩ ::
              GoalPart.atCall i.span ps').map GoalPart.erase := by
        simp [hx, hy, has, GoalPart.atCall_erase i.span hps]
      dsimp only
      split
      · exact .bind_context fun c => (ihlower body (c.hinted true)).bind fun ps ps' hps =>
          .pure (parts hps)
      · cases fuel with
        | zero => exact .pure (parts (by simp [hy]))
        | succ less => exact (ihless body).bind fun ps ps' hps => .pure (parts hps)
  | case9 => exact (whole _).bind fun x x' hx => .pure (by simp [hx])

theorem split_alike (v : View) (goal : Source.Expr) (induct : Bool) :
    DeclM.Alike (List.map GoalPart.erase) (split v goal induct) (split v goal induct) :=
  .bind_context fun _ => splitGoal_alike v _ _ induct goal

end ContractLowering
