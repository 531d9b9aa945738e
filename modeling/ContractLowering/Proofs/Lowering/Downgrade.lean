import ContractLowering.Lowering.BodyM
import ContractLowering.Proofs.IL.Relaxation
import ContractLowering.Proofs.Lowering.AlikeGoals
import ContractLowering.Proofs.Lowering.Blind

/-!
# Runs in step with a plain one

A declaration is lowered twice, once with the flags of inherited clauses and once without. The two
runs stay in step: they take the same fresh numbers, declare the same locals and the same parts of
the heap model, fail alike, and what the first emits relaxes what the second emits.

`Follows` says this of two computations; a computation is `Steady` if it follows itself with the
same result. Splitting a goal is steady, as only the places where goals are checked look at flags.
-/

namespace ContractLowering

open IL Source

/-! ## States -/

/-- The checks that may be missing, by the procedure they stand in: among its clauses, and in its
body. -/
structure Spared where
  clauses : String → Message → IL.Expr → Prop
  body : String → Message → IL.Expr → Prop

/-- A declaration relaxes another one in the checks that may be missing. -/
abbrev Spared.Relaxes (J : Spared) : IL.Decl → IL.Decl → Prop :=
  IL.Decl.Relaxes J.clauses J.body

/-- A state that differs from another one only in that what was emitted relaxes what the other
emitted. -/
structure Progress.Follows (J : Spared) (s s' : Progress) : Prop where
  same : s' = { s with emitted := s'.emitted }
  emitted : List.Forall₂ J.Relaxes s.emitted.rev s'.emitted.rev

namespace Progress.Follows

variable {J : Spared} {s s' : Progress}

/-- States that follow are one state with two collections of declarations. -/
theorem cases {p : Progress → Progress → Prop}
    (h : ∀ s e, List.Forall₂ J.Relaxes s.emitted.rev e.rev → p s { s with emitted := e })
    (hs : s.Follows J s') : p s s' := by
  rw [hs.same]
  exact h s _ hs.emitted

theorem of {s : Progress} {e : IL.ProgramBuilder}
    (he : List.Forall₂ J.Relaxes s.emitted.rev e.rev) : s.Follows J { s with emitted := e } :=
  ⟨rfl, he⟩

/-- What does not look at the emitted declarations. -/
theorem update {f : Progress → Progress} (hs : s.Follows J s')
    (hf : ∀ (s : Progress) (e : IL.ProgramBuilder),
      f { s with emitted := e } = { f s with emitted := e } ∧ (f s).emitted = s.emitted) :
    (f s).Follows J (f s') := by
  refine hs.cases (p := fun s s' => (f s).Follows J (f s')) fun s e he => ?_
  rw [(hf s e).1]
  exact of (by rw [(hf s e).2]; exact he)

theorem emit {d d' : IL.Decl} (hs : s.Follows J s') (hd : J.Relaxes d d') :
    (s.emit d).Follows J (s'.emit d') :=
  hs.cases (p := fun s s' => (s.emit d).Follows J (s'.emit d')) fun _ _ he => ⟨rfl, .cons hd he⟩

theorem emitAll (hs : s.Follows J s') (ds : List IL.Decl) :
    (s.emitAll ds).Follows J (s'.emitAll ds) := by
  induction ds generalizing s s' with
  | nil => exact hs
  | cons d ds ih => exact ih (hs.emit (.same d))

theorem ask (hs : s.Follows J s') (r : Request) : (s.ask r).Follows J (s'.ask r) :=
  hs.update (f := (·.ask r)) fun _ _ => ⟨rfl, rfl⟩

theorem declareClass (hs : s.Follows J s') (p : Path) :
    (s.declareClass p).Follows J (s'.declareClass p) := by
  have emitted := hs.emit (.same (Request.classDecl p))
  rw [hs.same] at emitted ⊢
  unfold Progress.declareClass
  dsimp only
  split
  · exact hs.same ▸ hs
  · exact ⟨rfl, emitted.emitted⟩

theorem declareField (hs : s.Follows J s') (f : Field) :
    (s.declareField f).Follows J (s'.declareField f) := by
  -- what is declared after the class of the field
  have declared : ∀ {t t' : Progress}, t.Follows J t' → ∀ hs : List FieldHandle,
      ({ t.emitAll (Request.fieldDecls f) with handles := hs } : Progress).Follows J
        { t'.emitAll (Request.fieldDecls f) with handles := hs } := by
    intro t t' ht hs
    have h := ht.emitAll (Request.fieldDecls f)
    refine h.cases (p := fun s s' => ({ s with handles := hs } : Progress).Follows J
      { s' with handles := hs }) fun _ _ he => ⟨rfl, he⟩
  have class_ := (hs.ask (.cls f.id.owner)).declareClass f.id.owner
  have handles : s'.handles = s.handles := by rw [hs.same]
  unfold Progress.declareField
  rw [handles]
  split
  · exact hs
  · split
    · have := congrArg Progress.handles class_.same
      dsimp only at this ⊢
      rw [this]
      exact declared class_ _
    · dsimp only
      rw [handles]
      exact declared hs _

theorem declareAll (hs : s.Follows J s') (rs : List Request) :
    (rs.foldl Progress.declare s).Follows J (rs.foldl Progress.declare s') := by
  induction rs generalizing s s' with
  | nil => exact hs
  | cons r rs ih =>
    refine ih ?_
    have asked := hs.ask r
    cases r with
    | cls p => exact asked.declareClass p
    | field f => exact asked.declareField f
    | arrayLength =>
      have emitted := asked.emit (.same Request.arrayLengthDecl)
      show ((s.ask .arrayLength).declareArrayLength).Follows J
        ((s'.ask .arrayLength).declareArrayLength)
      rw [asked.same] at emitted ⊢
      unfold Progress.declareArrayLength
      dsimp only
      split
      · exact asked.same ▸ asked
      · exact ⟨rfl, emitted.emitted⟩

end Progress.Follows

/-! ## Computations that lower declarations -/

/-- Outcomes of two runs that are in step. -/
def DeclM.InStep {α β : Type} (J : Spared) (R : α → β → Prop) :
    Except Fault α × Progress → Except Fault β × Progress → Prop
  | (.ok a, s), (.ok b, s') => R a b ∧ s.Follows J s'
  | (.error e, s), (.error e', s') => e = e' ∧ s.Follows J s'
  | _, _ => False

/-- A computation in a context whose run is in step with that of another one in the plain
context. -/
def DeclM.Follows {α β : Type} (J : Spared) (c : Context) (R : α → β → Prop) (x : DeclM α)
    (y : DeclM β) : Prop :=
  ∀ ⦃s s' : Progress⦄, s.Follows J s' → DeclM.InStep J R (x c s) (y c.plain s')

/-- A computation that does the same in the plain context. -/
abbrev DeclM.Steady {α : Type} (J : Spared) (c : Context) (x : DeclM α) : Prop :=
  x.Follows J c Eq x

namespace DeclM.Follows

variable {J : Spared} {c : Context} {α α' β β' : Type} {R : α → α' → Prop} {S : β → β' → Prop}

/-- Computations one after the other, where the second may rely on the first having run. -/
theorem bindRuns {x : DeclM α} {y : DeclM α'} {f : α → DeclM β} {g : α' → DeclM β'}
    (hx : x.Follows J c R y)
    (hf : ∀ a b, R a b → (∃ s s', x.Runs c s a s') → (f a).Follows J c S (g b)) :
    (x >>= f).Follows J c S (y >>= g) := by
  intro s s' hs
  have h := hx hs
  show InStep J S (seq x f c s) (seq y g c.plain s')
  unfold seq
  rcases hxe : x c s with ⟨e | a, t⟩ <;> rcases hye : y c.plain s' with ⟨e' | b, t'⟩ <;>
    rw [hxe, hye] at h
  · exact h
  · exact h.elim
  · exact h.elim
  · exact hf a b h.1 ⟨s, t, hxe⟩ h.2

theorem bind {x : DeclM α} {y : DeclM α'} {f : α → DeclM β} {g : α' → DeclM β'}
    (hx : x.Follows J c R y) (hf : ∀ a b, R a b → (f a).Follows J c S (g b)) :
    (x >>= f).Follows J c S (y >>= g) :=
  hx.bindRuns fun a b hab _ => hf a b hab

/-- After a steady computation both runs go on with the same. -/
theorem andThen {x : DeclM α} {f : α → DeclM β} {g : α → DeclM β'} (hx : x.Steady J c)
    (hf : ∀ a, (f a).Follows J c S (g a)) : (x >>= f).Follows J c S (x >>= g) :=
  hx.bind fun a _ hab => hab ▸ hf a

theorem pure {a : α} {b : α'} (hab : R a b) :
    (Pure.pure a : DeclM α).Follows J c R (Pure.pure b : DeclM α') :=
  fun _ _ hs => ⟨hab, hs⟩

theorem steady (a : α) : (Pure.pure a : DeclM α).Steady J c := .pure rfl

theorem ofExpr {x : ExprM α} (hx : x.Blind) : (DeclM.ofExpr x).Steady J c := by
  intro s s' hs
  have henv : s'.env c.plain = (s.env c).plain := by rw [hs.same]; rfl
  have hrun : x (s'.env c.plain) = x (s.env c) := by rw [henv, hx]
  show InStep J Eq ((x (s.env c)).result.mapError Fault.broken, _)
    ((x (s'.env c.plain)).result.mapError Fault.broken, (x (s'.env c.plain)).requests.foldl _ s')
  rw [hrun]
  cases (x (s.env c)).result with
  | error b => exact ⟨rfl, hs.declareAll _⟩
  | ok a => exact ⟨rfl, hs.declareAll _⟩

/-- What is looked up in the context, and in the plain one as something else. -/
theorem ofLookup {r : Except Broken α} {r' : Except Broken α'} {g : α → α'} (h : r' = r.map g) :
    (DeclM.ofExpr (ExprM.ofExcept r)).Follows J c (fun a b => b = g a)
      (DeclM.ofExpr (ExprM.ofExcept r')) := by
  subst h
  intro s s' hs
  cases r with
  | error b => exact ⟨rfl, hs⟩
  | ok a => exact ⟨rfl, hs⟩

theorem function (p : Path) :
    (DeclM.ofExpr (ExprM.function p)).Follows J c (fun f f' => f' = f.plain)
      (DeclM.ofExpr (ExprM.function p)) := by
  intro s s' hs
  exact ofLookup (c := c) (c.function_plain p) hs

theorem context {f : Context → DeclM β} {g : Context → DeclM β'}
    (h : (f c).Follows J c S (g c.plain)) :
    (DeclM.context >>= f).Follows J c S (DeclM.context >>= g) :=
  fun _ _ hs => h hs

theorem state {f : Progress → DeclM β} {g : Progress → DeclM β'}
    (h : ∀ s s' : Progress, s'.decl = s.decl → (f s).Follows J c S (g s')) :
    (DeclM.state >>= f).Follows J c S (DeclM.state >>= g) :=
  fun _ _ hs => h _ _ (by rw [hs.same]) hs

theorem reject (m : Message) : (DeclM.reject m : DeclM α).Follows J c R (DeclM.reject m) :=
  fun _ _ hs => ⟨rfl, hs⟩

theorem emit {d d' : IL.Decl} (hd : J.Relaxes d d') :
    (DeclM.emit d).Follows J c Eq (DeclM.emit d') :=
  fun _ _ hs => ⟨rfl, hs.emit hd⟩

theorem emitSame (d : IL.Decl) : (DeclM.emit d).Steady J c := emit (.same d)

theorem emitFact (e : IL.Expr) : (DeclM.emitFact e).Steady J c := emitSame _

theorem freshId : DeclM.freshId.Steady J c :=
  fun _ _ hs => hs.cases (p := fun s s' => InStep J Eq (DeclM.freshId c s)
    (DeclM.freshId c.plain s')) fun _ _ he => ⟨rfl, rfl, he⟩

theorem declareLocal (x : String) (sort : Srt) : (DeclM.declareLocal x sort).Steady J c :=
  fun _ _ hs => ⟨rfl, hs.update
    (f := fun s => { s with decl := s.decl.declareLocal x sort }) fun _ _ => ⟨rfl, rfl⟩⟩

theorem setYieldCount (x : String) : (DeclM.setYieldCount x).Steady J c :=
  fun _ _ hs => ⟨rfl, hs.update
    (f := fun s => { s with decl := { s.decl with yieldCount := some x } }) fun _ _ => ⟨rfl, rfl⟩⟩

theorem takeLocals : DeclM.takeLocals.Steady J c := by
  refine fun _ _ hs => hs.cases (p := fun s s' => InStep J Eq (DeclM.takeLocals c s)
    (DeclM.takeLocals c.plain s')) fun s e he => ?_
  unfold DeclM.takeLocals
  dsimp only
  split <;> exact ⟨rfl, rfl, he⟩

theorem within {x : DeclM α} {y : DeclM α'} (hx : x.Follows J c R y) (span : Span)
    (module : String) (member : Option Path) :
    (DeclM.within span module member x).Follows J c R (DeclM.within span module member y) := by
  intro s s' hs
  have decl : s'.decl = s.decl := by rw [hs.same]
  unfold DeclM.within Progress.enter
  rw [decl]
  cases hp : s.decl.inProgress with
  | true => exact ⟨rfl, hs⟩
  | false =>
    let entered : DeclState := { inProgress := true, module := some module, member }
    have h := hx (hs.update (f := fun s => { s with decl := entered }) fun _ _ => ⟨rfl, rfl⟩)
    simp only [Bool.false_eq_true, if_false]
    rcases hxe : x c { s with decl := entered } with ⟨e | a, t⟩ <;>
      rcases hye : y c.plain { s' with decl := entered } with ⟨e' | b, t'⟩ <;>
      rw [hxe, hye] at h
    · exact ⟨h.1, h.2.update (f := Progress.leave) fun _ _ => ⟨rfl, rfl⟩⟩
    · exact h.elim
    · exact h.elim
    · exact ⟨h.1, h.2.update (f := Progress.leave) fun _ _ => ⟨rfl, rfl⟩⟩

theorem mapM {ι ι' : Type} {T : ι → ι' → Prop} {f : ι → DeclM α} {g : ι' → DeclM α'} {l : List ι}
    {l' : List ι'} (hl : List.Forall₂ T l l') (hf : ∀ a b, T a b → (f a).Follows J c R (g b)) :
    (l.mapM f).Follows J c (List.Forall₂ R) (l'.mapM g) := by
  induction hl with
  | nil => exact pure .nil
  | cons hab _ ih =>
    rw [List.mapM_cons, List.mapM_cons]
    exact (hf _ _ hab).bind fun _ _ h => ih.bind fun _ _ hs => pure (.cons h hs)

theorem forM {ι ι' : Type} {T : ι → ι' → Prop} {f : ι → DeclM Unit} {g : ι' → DeclM Unit}
    {l : List ι} {l' : List ι'} (hl : List.Forall₂ T l l')
    (hf : ∀ a b, T a b → (f a).Follows J c Eq (g b)) :
    (l.forM f).Follows J c Eq (l'.forM g) := by
  induction hl with
  | nil => exact steady ()
  | cons hab _ ih => exact (hf _ _ hab).bind fun _ _ _ => ih

/-- A steady step for every element. -/
theorem forMSame {ι : Type} {f : ι → DeclM Unit} {l : List ι} (hf : ∀ a ∈ l, (f a).Steady J c) :
    (l.forM f).Steady J c := by
  induction l with
  | nil => exact steady ()
  | cons a l ih => exact (hf a (by simp)).andThen fun _ => ih fun b hb => hf b (by simp [hb])

/-- A step that is not always taken, before the rest. -/
theorem optional {p : Prop} [Decidable p] {x y : DeclM α} {x' y' : DeclM α'}
    (rest : y.Follows J c R y') (step : y.Follows J c R y' → x.Follows J c R x') :
    (if p then x else y).Follows J c R (if p then x' else y') := by
  split
  · exact step rest
  · exact rest

end DeclM.Follows

/-! ## Computations that write bodies -/

/-- A computation whose run is in step with that of another one in the plain context, where the
statements it appends relax the other's. -/
def BodyM.Follows {α β : Type} (J : Spared) (P : Message → IL.Expr → Prop) (c : Context)
    (R : α → β → Prop) (x : BodyM α) (y : BodyM β) : Prop :=
  x.run.Follows J c (fun a b => R a.1 b.1 ∧ Stmt.RelaxesAll P a.2 b.2) y.run

/-- A computation that does the same in the plain context. -/
abbrev BodyM.Steady {α : Type} (J : Spared) (P : Message → IL.Expr → Prop) (c : Context)
    (x : BodyM α) : Prop :=
  x.Follows J P c Eq x

namespace BodyM.Follows

variable {J : Spared} {P : Message → IL.Expr → Prop} {c : Context} {α α' β β' : Type}
  {R : α → α' → Prop} {S : β → β' → Prop}

theorem bind {x : BodyM α} {y : BodyM α'} {f : α → BodyM β} {g : α' → BodyM β'}
    (hx : x.Follows J P c R y) (hf : ∀ a b, R a b → (f a).Follows J P c S (g b)) :
    (x >>= f).Follows J P c S (y >>= g) :=
  DeclM.Follows.bind hx fun a b hab => DeclM.Follows.bind (hf a.1 b.1 hab.1) fun _ _ hab' =>
    .pure ⟨hab'.1, hab.2.append hab'.2⟩

/-- After a steady computation both runs go on with the same. -/
theorem andThen {x : BodyM α} {f : α → BodyM β} {g : α → BodyM β'} (hx : x.Steady J P c)
    (hf : ∀ a, (f a).Follows J P c S (g a)) : (x >>= f).Follows J P c S (x >>= g) :=
  hx.bind fun a _ hab => hab ▸ hf a

theorem pure {a : α} {b : α'} (hab : R a b) :
    (Pure.pure a : BodyM α).Follows J P c R (Pure.pure b : BodyM α') :=
  DeclM.Follows.pure ⟨hab, .nil⟩

theorem steady (a : α) : (Pure.pure a : BodyM α).Steady J P c := .pure rfl

theorem ofDecl {x : DeclM α} {y : DeclM α'} (hx : x.Follows J c R y) :
    (BodyM.ofDecl x).Follows J P c R (BodyM.ofDecl y) :=
  DeclM.Follows.bind hx fun _ _ hab => .pure ⟨hab, .nil⟩

/-- After a steady computation that appends nothing, relying on its having run. -/
theorem bindRuns {x : DeclM α} {f : α → BodyM β} {g : α → BodyM β'} (hx : x.Steady J c)
    (hf : ∀ a, (∃ s s', x.Runs c s a s') → (f a).Follows J P c S (g a)) :
    (BodyM.ofDecl x >>= f).Follows J P c S (BodyM.ofDecl x >>= g) := by
  have hrun : (BodyM.ofDecl x).run.Follows J c
      (fun a b => (∃ s s', x.Runs c s a.1 s') ∧ a.1 = b.1 ∧ Stmt.RelaxesAll P a.2 b.2)
      (BodyM.ofDecl x).run :=
    DeclM.Follows.bindRuns hx fun a b hab hruns => .pure ⟨hruns, hab, .nil⟩
  refine DeclM.Follows.bind hrun fun a b ⟨hruns, hab, hss⟩ => ?_
  have h := hf a.1 hruns
  rw [show g a.1 = g b.1 by rw [hab]] at h
  exact DeclM.Follows.bind h fun _ _ hab' => .pure ⟨hab'.1, hss.append hab'.2⟩

theorem ofExpr {x : ExprM α} (hx : x.Blind) :
    (BodyM.ofDecl (DeclM.ofExpr x)).Steady J P c :=
  ofDecl (.ofExpr hx)

theorem context {f : Context → BodyM β} {g : Context → BodyM β'}
    (h : (f c).Follows J P c S (g c.plain)) :
    (BodyM.ofDecl DeclM.context >>= f).Follows J P c S (BodyM.ofDecl DeclM.context >>= g) := by
  intro s s' hs
  exact (Follows.bind (steady (P := P) ()) fun _ _ _ => h) hs

theorem state {f : Progress → BodyM β} {g : Progress → BodyM β'}
    (h : ∀ s s' : Progress, s'.decl = s.decl → (f s).Follows J P c S (g s')) :
    (BodyM.ofDecl DeclM.state >>= f).Follows J P c S (BodyM.ofDecl DeclM.state >>= g) := by
  intro s s' hs
  exact (Follows.bind (steady (P := P) ()) fun _ _ _ => h s s' (by rw [hs.same])) hs

theorem add {ss ss' : List IL.Stmt} (h : Stmt.RelaxesAll P ss ss') :
    (BodyM.add ss).Follows J P c Eq (BodyM.add ss') :=
  DeclM.Follows.pure ⟨rfl, h⟩

theorem addSame (ss : List IL.Stmt) : (BodyM.add ss).Steady J P c := add (.refl ss)

theorem inside {x : BodyM α} {y : BodyM α'} (hx : x.Follows J P c R y) :
    (BodyM.inside x).Follows J P c (fun a b => R a.1 b.1 ∧ Stmt.RelaxesAll P a.2 b.2)
      (BodyM.inside y) :=
  ofDecl hx

theorem block {x y : BodyM Unit} (hx : x.Follows J P c Eq y) :
    (BodyM.block x).Follows J P c (Stmt.RelaxesAll P) (BodyM.block y) :=
  (inside hx).bind fun _ _ hab => .pure hab.2

theorem mapM {ι ι' : Type} {T : ι → ι' → Prop} {f : ι → BodyM α} {g : ι' → BodyM α'} {l : List ι}
    {l' : List ι'} (hl : List.Forall₂ T l l') (hf : ∀ a b, T a b → (f a).Follows J P c R (g b)) :
    (l.mapM f).Follows J P c (List.Forall₂ R) (l'.mapM g) := by
  induction hl with
  | nil => exact pure .nil
  | cons hab _ ih =>
    rw [List.mapM_cons, List.mapM_cons]
    exact (hf _ _ hab).bind fun _ _ h => ih.bind fun _ _ hs => pure (.cons h hs)

/-- A steady computation for every element. -/
theorem mapMSame {ι : Type} {f : ι → BodyM α} {l : List ι} (hf : ∀ a ∈ l, (f a).Steady J P c) :
    (l.mapM f).Steady J P c := by
  induction l with
  | nil => exact steady []
  | cons a l ih =>
    rw [List.mapM_cons]
    exact (hf a (by simp)).andThen fun _ => (ih fun b hb => hf b (by simp [hb])).andThen fun _ =>
      steady _

theorem forM {ι ι' : Type} {T : ι → ι' → Prop} {f : ι → BodyM Unit} {g : ι' → BodyM Unit}
    {l : List ι} {l' : List ι'} (hl : List.Forall₂ T l l')
    (hf : ∀ a b, T a b → (f a).Follows J P c Eq (g b)) :
    (l.forM f).Follows J P c Eq (l'.forM g) := by
  induction hl with
  | nil => exact steady ()
  | cons hab _ ih => exact (hf _ _ hab).bind fun _ _ _ => ih

/-- A steady step for every element. -/
theorem forMSame {ι : Type} {f : ι → BodyM Unit} {l : List ι} (hf : ∀ a ∈ l, (f a).Steady J P c) :
    (l.forM f).Steady J P c := by
  induction l with
  | nil => exact steady ()
  | cons a l ih => exact (hf a (by simp)).andThen fun _ => ih fun b hb => hf b (by simp [hb])

theorem forMOption {ι : Type} {f : ι → BodyM Unit} {o : Option ι} (hf : ∀ a, (f a).Steady J P c) :
    (o.forM f).Steady J P c := by
  cases o with
  | none => exact steady ()
  | some a => exact hf a

end BodyM.Follows

/-! ## Goals -/

section

variable {J : Spared} {c : Context}

open DeclM (Steady)
open DeclM.Follows (ofExpr steady)

theorem openingBound_plain (goal : Source.Expr) : openingBound c.plain goal = openingBound c goal := by
  simp [openingBound, Context.plain, Function.plain, Function.comp_def]

variable (v : View)

theorem Induction.hypothesis_steady (span : Span) (binders vars : List Source.Binder)
    {goal : Subst → ExprM IL.Expr} (hg : ∀ s, (goal s).Blind) :
    (Induction.hypothesis v span binders vars goal).Steady J c :=
  .andThen .freshId fun _ => (ofExpr (bindersWhere_has _ _)).andThen fun _ =>
    (ofExpr (hg _)).andThen fun _ => steady _

theorem quantifierGoal_blind (range : Option Source.Expr) (body : Source.Expr) (s : Subst) :
    (quantifierGoal v range body s).Blind := by
  cases range with
  | none => exact (lowerExpr_has _ v).bind fun _ => .pure _
  | some r => exact (lowerExpr_has _ v).bind fun _ => (lowerExpr_has _ v).bind fun _ => .pure _

theorem quantifierObligations_steady (span : Span) (binders vars : List Source.Binder)
    (range : Option Source.Expr) (body : Source.Expr) :
    (quantifierObligations v span binders vars range body).Steady J c :=
  (Induction.hypothesis_steady v span binders vars (quantifierGoal_blind v range body)).andThen
    fun _ => (ofExpr (quantifierGoal_blind v range body {})).andThen fun _ =>
    (ofExpr (bindersWhere_has _ _)).andThen fun _ =>
    (ofExpr (Induction.caseSplit_has vars)).andThen fun _ => steady _

theorem lemmaHypothesis_steady (span : Span) (ins vars : List Source.Binder)
    (requires ensures : List Source.Expr) :
    (lemmaHypothesis v span ins vars requires ensures).Steady J c :=
  Induction.hypothesis_steady v span ins vars fun _ =>
    (ExprM.Trait.Has.mapM fun _ _ => lowerExpr_has _ v).bind fun _ =>
    (ExprM.Trait.Has.mapM fun _ _ => lowerExpr_has _ v).bind fun _ => .pure _

theorem selectedVars_blind (induct : Bool) (attr : Source.Induction) (bs : List Source.Binder)
    (es : List Source.Expr) : (selectedVars induct attr bs es).Blind := by
  cases induct with
  | true => exact inductionVars_has attr bs es
  | false => exact .pure _

/-- A call is opened as the plain function it calls is. -/
theorem openedBody?_plain (f : Function) (receiver : Option Source.Expr)
    (args : List Source.Expr) : openedBody? f.plain receiver args = openedBody? f receiver args :=
  rfl

theorem splitGoal_steady (height fuel : Nat) (induct : Bool) (goal : Source.Expr) :
    (splitGoal v height fuel induct goal).Steady J c := by
  have whole (e : Source.Expr) : (DeclM.ofExpr (lowerExpr v e)).Steady J c :=
    ofExpr (lowerExpr_has e v)
  fun_induction splitGoal v height fuel induct goal with
  | case1 height fuel induct i a b iha ihb => exact iha.andThen fun _ => ihb.andThen fun _ => steady _
  | case2 height fuel induct i a b ihb =>
    exact (whole a).andThen fun _ => ihb.andThen fun _ => steady _
  | case3 height fuel induct i a b ihb =>
    exact (whole a).andThen fun _ => ihb.andThen fun _ => steady _
  | case4 height fuel induct i t a b iha ihb =>
    exact (whole t).andThen fun _ => iha.andThen fun _ => ihb.andThen fun _ => steady _
  | case5 height fuel induct i bs body ih =>
    exact (ofExpr (lowerBindings_has v bs)).andThen fun _ => ih.andThen fun _ => steady _
  | case6 height fuel induct i bs r body ts attr ih =>
    rw [← splitGoal, splitGoal_all]
    refine (ofExpr (bindersWhere_has _ _)).andThen fun _ =>
      (ofExpr (lowerExpr?_has v r)).andThen fun _ => .context ?_
    refine (ofExpr (lowerTriggers_has v ts)).andThen fun _ =>
      (ofExpr (selectedVars_blind induct attr bs _)).andThen fun vars => ?_
    split
    · exact ih.andThen fun _ => steady _
    · exact (quantifierObligations_steady v i.span bs vars r body).andThen fun _ =>
        (whole _).andThen fun _ => steady _
  | case7 => exact (whole _).andThen fun _ => steady _
  | case8 fuel induct i f receiver args lower ihlower ihless =>
    refine (DeclM.Follows.function f).bind fun callee _ hcallee => ?_
    subst hcallee
    refine (whole _).andThen fun call => ?_
    rw [openedBody?_plain]
    refine (ofExpr (openedBody?_has callee receiver args)).andThen fun opened => ?_
    cases opened with
    | none => exact steady _
    | some body =>
      refine (ofExpr (lowerCallArgs_has v f receiver args)).andThen fun _ =>
        (whole body).andThen fun _ => (ofExpr (.isRecursive f)).andThen fun recursive => ?_
      dsimp only
      split
      · refine .context ?_
        rw [openingBound_plain]
        exact (ihlower body c).andThen fun _ => steady _
      · cases fuel with
        | zero => exact steady _
        | succ less => exact (ihless body).andThen fun _ => steady _
  | case9 => exact (whole _).andThen fun _ => steady _

theorem split_steady (goal : Source.Expr) (induct : Bool) : (split v goal induct).Steady J c := by
  refine .context ?_
  rw [openingBound_plain]
  exact splitGoal_steady v _ _ induct goal

end

end ContractLowering
