import ContractLowering.Proofs.IL.LoopCut
import ContractLowering.Proofs.Lowering.Conditions
import ContractLowering.Proofs.Lowering.Dependence
import ContractLowering.Proofs.Lowering.LoopMeasure
import ContractLowering.Proofs.Lowering.Quiet
import ContractLowering.Proofs.Lowering.SortedChecks
import ContractLowering.Proofs.Standard.Consistency
import Mathlib

/-!
# The body of a function depends on its reads clause

`CheckWellformed$$f` ends in a choice, and its second branch checks the body. If no execution of
that branch violates an assertion, the lowered body has the same value in a later heap that agrees
with the current one on the reads clause (`body_unchanged`). This is what the frame fact of the
function says of its calls.

The checks do not see everything. A bound variable may hide a parameter that the reads clause
names, and bound variables range over what is allocated (`body_changed_of_alloc`). So bound
variables are apart from the parameters (`Source.Function.Typed`), and the body is steady.
-/

namespace ContractLowering

open IL Source Model

/-! ## The branch of the body -/

/-- Fields are declared as the program has them. -/
def Context.Declared (c : Context) (handles : List FieldHandle) : Prop :=
  ∀ h ∈ handles, ∃ g, c.field g.id = .ok g ∧ h = .ofField g

theorem Env.handle_of_declared {env : Env} (h : env.context.Declared env.handles) {f : Field}
    (hf : env.context.field f.id = .ok f) : env.handle f = .ofField f := by
  unfold Env.handle
  cases hfind : env.handles.find? (·.id = f.id) with
  | none => rfl
  | some k =>
    obtain ⟨g, hg, rfl⟩ := h k (List.mem_of_find?_eq_some hfind)
    have hid : (FieldHandle.ofField g).id = f.id := by simpa using List.find?_some hfind
    rw [show g.id = f.id from hid, hf] at hg
    obtain rfl := Except.ok.inj hg
    rfl

namespace DeclM

variable {α β : Type}

/-- A computation that, if it does not fail, only adds to the state. -/
def Adds (x : DeclM α) (c : Context) : Prop := ∀ ⦃s a s'⦄, x.Gives c s a s' → s.Extends s'

/-- A computation whose last step is another one, and whose other steps only add to the state. -/
def EndsWith (x y : DeclM Unit) (c : Context) : Prop :=
  ∀ ⦃s s'⦄, x.Gives c s () s' → ∃ s₀, s.Extends s₀ ∧ y.Gives c s₀ () s'

variable {c : Context}

namespace Adds

theorem of_grows {x : DeclM α} (hx : x.Grows) : x.Adds c := fun _ _ _ h => hx.extends_of_gives h

theorem pure (a : α) : (Pure.pure a : DeclM α).Adds c := of_grows (.pure a)

theorem ofExpr (x : ExprM α) : (liftM x : DeclM α).Adds c := of_grows (.ofExpr x)

theorem bind {x : DeclM α} {f : α → DeclM β} (hx : x.Adds c) (hf : ∀ a, (f a).Adds c) :
    (x >>= f).Adds c := by
  intro s b s' h
  obtain ⟨a, s₁, ha, hb⟩ := gives_bind.1 h
  exact (hx ha).trans (hf a hb)

theorem emit (d : IL.Decl) : (DeclM.emit d).Adds c := by
  intro s _ s' h
  obtain rfl := gives_emit.1 h
  exact s.extends_emit d

theorem ite {p : Prop} [Decidable p] {x y : DeclM α} (hx : x.Adds c) (hy : y.Adds c) :
    (if p then x else y).Adds c := by
  split
  · exact hx
  · exact hy

theorem forM {f : α → DeclM Unit} {l : List α} (hf : ∀ a, (f a).Adds c) : (l.forM f).Adds c := by
  induction l with
  | nil => exact pure ()
  | cons a l ih => exact (hf a).bind fun _ => ih

theorem forM_option {f : α → DeclM Unit} {o : Option α} (hf : ∀ a, (f a).Adds c) :
    (o.forM f).Adds c := by
  cases o with
  | none => exact pure ()
  | some a => exact hf a

end Adds

namespace EndsWith

theorem refl (x : DeclM Unit) : x.EndsWith x c := fun s _ h => ⟨s, .refl s, h⟩

theorem bind {x : DeclM α} {f : α → DeclM Unit} {y : DeclM Unit} (hx : x.Adds c)
    (hf : ∀ a, (f a).EndsWith y c) : (x >>= f).EndsWith y c := by
  intro s s' h
  obtain ⟨a, s₁, ha, hb⟩ := gives_bind.1 h
  obtain ⟨s₀, hs₀, hy⟩ := hf a hb
  exact ⟨s₀, (hx ha).trans hs₀, hy⟩

theorem ite {p : Prop} [Decidable p] {x x' y : DeclM Unit} (hx : x.EndsWith y c)
    (hx' : x'.EndsWith y c) : (if p then x else x').EndsWith y c := by
  split
  · exact hx
  · exact hx'

end EndsWith

end DeclM

namespace Source.Function

variable {c : Context} {s s' : Progress} {f : Function} {e : Source.Expr} {limits : Limits}
  {v : View} {ss : List IL.Stmt}

/-- The view in which the body of a function is checked. -/
def bodyView (f : Function) : View := f.factView Prelude.heapVar .default

/-- The variables of the parameters. -/
def typing (f : Function) : Typing := Typing.bind f.params fun _ => none

/-- The environment of a function in a program, with some fields declared. -/
def env (f : Function) (c : Context) (handles : List FieldHandle) : Env :=
  ⟨c, some f.name, some f.name.module, handles⟩

/-- The measure of a function on entry. -/
def measure (f : Function) : Measure := .ofMember f.decreases f.span f.params

/-- What the body is checked against: the reads clause and the measure on entry. -/
def bodyLimits (f : Function) (olds : List MeasureValue) : Limits :=
  { reads := some f.reads
    termination := some ⟨f.name, olds, f.measure.inferred, f.measure.wildcard⟩ }

/-- What the body is checked against in a program, which may not check the reads clause. -/
def entryLimits (f : Function) (c : Context) (olds : List MeasureValue) : Limits :=
  { f.bodyLimits olds with reads := if c.options.checkReads then some f.reads else none }

theorem entryLimits_eq (h : c.options.checkReads = true) (olds : List MeasureValue) :
    f.entryLimits c olds = f.bodyLimits olds := by
  rw [entryLimits, if_pos h]
  rfl

instance (v : View) (limits : Limits) : (f.checkPost v limits).Quiet := by
  unfold checkPost
  infer_instance

instance (v : View) (limits : Limits) (e : Source.Expr) : (f.checkBody v limits e).Quiet := by
  unfold checkBody
  infer_instance

/-- The branch begins with the checks of the body. -/
theorem checkBody_definedness (h : (f.checkBody v limits e).Emits c s () ss s') :
    ∃ checks rest, ss = checks ++ rest ∧ (definedness v limits e).Returns (s.env c) checks := by
  simp only [checkBody, BodyM.emits_expr_bind, BodyM.emits_add_bind] at h
  obtain ⟨checks, hchecks, rest, -, rfl⟩ := h
  exact ⟨checks, rest, rfl, hchecks⟩

/-- A clause of the contract is checked and assumed. -/
theorem defineAndAssume_writes :
    BodyM.Writes (fun t => t.isCondition = true) (BodyM.defineAndAssume v limits e) := by
  intro c s a ss s' h
  obtain ⟨checks, hchecks, h⟩ := BodyM.emits_expr_bind.1 h
  have hconditions := check_conditions e _ _ _ _ _ hchecks
  split at h
  · obtain ⟨rest, hrest, rfl⟩ := BodyM.emits_add_bind.1 h
    obtain ⟨x, -, hassume⟩ := BodyM.emits_expr_bind.1 hrest
    obtain ⟨rfl, -⟩ := BodyM.emits_add.1 hassume
    exact List.forall_mem_append.2 ⟨hconditions, by simp [IL.Stmt.isCondition]⟩
  · obtain ⟨rest, hrest, rfl⟩ := BodyM.emits_add_bind.1 h
    obtain ⟨-, rfl, -⟩ := BodyM.emits_pure.1 hrest
    exact List.forall_mem_append.2 ⟨hconditions, List.forall_mem_nil _⟩

/-- The code that checks a function checks its contract and ends in a choice, of which the second
branch checks the body. -/
theorem checkAll_branch (hbody : f.body = some e) (h : (f.checkAll f.bodyView).Emits c s () ss s') :
    ∃ before post branch olds s₁, ss = before ++ [.ifElse none post branch] ∧ s.Extends s₁ ∧
      IL.Stmt.Conditions before ∧
      (Termination.values f.bodyView f.measure).Returns (s.env c) olds ∧
      (f.checkBody f.bodyView (f.entryLimits c olds) e).Emits c s₁ () branch s' := by
  unfold checkAll at h
  obtain ⟨olds, holds, h₀⟩ := BodyM.emits_expr_bind.1 h
  obtain ⟨_, s₁, before, _, hcontract, h₁, rfl⟩ := BodyM.emits_bind.1 h₀
  obtain ⟨_, s₂, hlocal, h₂⟩ := BodyM.emits_decl_bind.1 h₁
  obtain ⟨post, s₃, _, _, hblock, h₃, rfl⟩ := BodyM.emits_bind.1 h₂
  obtain ⟨hpost, rfl⟩ := BodyM.emits_block.1 hblock
  simp only [BodyM.emits_decl_bind, DeclM.gives_context, hbody, and_assoc, exists_and_left,
    exists_eq_left] at h₃
  obtain ⟨branch, s₄, _, _, hblock, h₅, rfl⟩ := BodyM.emits_bind.1 h₃
  obtain ⟨hbranch, rfl⟩ := BodyM.emits_block.1 hblock
  obtain ⟨rfl, rfl⟩ := BodyM.emits_add.1 h₅
  refine ⟨before, post, branch, olds, s₃, rfl, ?_,
    BodyM.Writes.forM (fun _ => defineAndAssume_writes) hcontract, holds, hbranch⟩
  have hbefore : s.Extends s₁ :=
    (s.extends_foldl_declare _).trans (BodyM.Quiet.extends_of_emits inferInstance hcontract)
  exact hbefore.trans ((DeclM.Grows.extends_of_gives (.declareLocal _ _) hlocal).trans
    (BodyM.Quiet.extends_of_emits inferInstance hpost))

theorem emitDefinitions_adds (f : Function) (c : Context) (recursive : Bool) (e : Source.Expr) :
    (f.emitDefinitions recursive e).Adds c := by
  unfold emitDefinitions
  refine (DeclM.Adds.ofExpr _).bind fun _ => (DeclM.Adds.emit _).bind fun _ => ?_
  split
  · refine (DeclM.Adds.ofExpr _).bind fun _ => (DeclM.Adds.emit _).bind fun _ => ?_
    split
    · exact .pure ()
    · exact .forM fun _ => (DeclM.Adds.ofExpr _).bind fun _ => .emit _
  · exact .pure ()

/-- The last step of lowering a function is to check it. -/
theorem lower_ends (f : Function) (c : Context) : ∃ x, x.EndsWith f.emitCheck c ∧
    f.lower = DeclM.within f.span f.name.module (some f.name) x := by
  refine ⟨_, ?_, rfl⟩
  have fact (e : IL.Expr) : (DeclM.emitFact e).Adds c := .emit _
  refine .bind (.ofExpr _) fun recursive => .bind (.forM fun _ => .emit _) fun _ => ?_
  have posts : ∀ u : Unit, DeclM.EndsWith (do
      let o ← f.postFact?
      o.forM DeclM.emitFact
      if !f.reads.isEmpty then DeclM.emitFact (← f.frameFact)
      if !f.isHidden then f.body.forM (f.emitDefinitions recursive)
      f.emitCheck) f.emitCheck c := fun _ => by
    refine .bind (.ofExpr _) fun o => .bind (.forM_option fact) fun _ => ?_
    have definitions : ∀ u : Unit, DeclM.EndsWith (do
        if !f.isHidden then f.body.forM (f.emitDefinitions recursive)
        f.emitCheck) f.emitCheck c := fun _ =>
      .ite (.bind (.forM_option (f.emitDefinitions_adds c recursive)) fun _ => .refl _) (.refl _)
    exact .ite (.bind (.ofExpr _) fun _ => .bind (fact _) definitions) (definitions ())
  exact .ite (.bind (.forM fact) posts) (posts ())

/-- The procedure that checks a function ends in a choice, of which the second branch checks the
body. -/
theorem lower_branch (hbody : f.body = some e) (h : f.lower.Gives c s () s') :
    ∃ locals before post branch olds handles handles' s₁ s₂,
      .implementation
        { name := Naming.proc f.name .checkWellformed
          params := f.thisBinder ++ sortBinders f.params, outs := [], locals
          body := before ++ [.ifElse none post branch] } ∈ s'.emitted.rev ∧
      IL.Stmt.Conditions before ∧ handles <:+ handles' ∧ handles' <:+ s'.handles ∧
      (Termination.values f.bodyView f.measure).Returns (f.env c handles) olds ∧
      s₁.env c = f.env c handles' ∧
      (f.checkBody f.bodyView (f.entryLimits c olds) e).Emits c s₁ () branch s₂ := by
  obtain ⟨x, hx, hlower⟩ := f.lower_ends c
  rw [hlower] at h
  obtain ⟨t, -, ht, rfl⟩ := DeclM.gives_within.1 h
  obtain ⟨s₀, hs₀, hcheck⟩ := hx ht
  unfold emitCheck at hcheck
  obtain ⟨hyps, s₁, hhyps, hrest⟩ := DeclM.gives_bind.1 hcheck
  obtain ⟨_, s₂, hproc, hrest⟩ := DeclM.gives_bind.1 hrest
  obtain ⟨⟨_, ss⟩, s₃, hall, hrest⟩ := DeclM.gives_bind.1 hrest
  obtain ⟨locals, s₄, hlocals, himp⟩ := DeclM.gives_bind.1 hrest
  obtain rfl := DeclM.gives_emit.1 himp
  obtain ⟨-, rfl, rfl⟩ := DeclM.gives_takeLocals.1 hlocals
  obtain ⟨before, post, branch, olds, s₅, rfl, hs₅, hbefore, holds, hbranch⟩ :=
    checkAll_branch hbody hall
  have hfrom := (hs₀.trans (DeclM.Grows.extends_of_gives (.ofExpr _) hhyps)).trans
    ((DeclM.gives_emit.1 hproc) ▸ s₁.extends_emit _)
  have env_eq : ∀ {t : Progress}, t.decl.member = some f.name → t.decl.module = some f.name.module →
      t.env c = f.env c t.handles := fun hmember hmodule => by
    rw [Progress.env, env, hmember, hmodule]
  refine ⟨_, before, post, branch, olds, s₂.handles, s₅.handles, s₅, s₃, List.mem_cons_self,
    hbefore, hs₅.handles, (BodyM.Quiet.extends_of_emits inferInstance hbranch).handles, ?_, ?_, hbranch⟩
  · rw [← env_eq hfrom.member hfrom.module]
    exact holds
  · exact env_eq (hs₅.member.trans hfrom.member) (hs₅.module.trans hfrom.module)

/-! ## Two heaps -/

/-- A function and the functions it may call have resolved and well-typed contracts, and its body is
well typed and binds no name of a parameter. -/
structure Typed (Δ : Vocabulary) (env : Env) (f : Function) (e : Source.Expr) : Prop where
  covers : Δ.Covers env.context
  contracts : ∀ p g, env.context.function p = .ok g →
    g.ContractTyped env.context (.contract env f.bodyView)
  own : f.ContractTyped env.context (.lowering env f.bodyView)
  params : ∀ b ∈ f.params, b.1 ≠ Naming.objVar
  body : WellTyped env.context (.beside env f.bodyView f.typing) f.owner.isSome f.typing e

/-- A body is evaluated in a state, and again in a later heap that agrees with the current one on
the reads clause. Called functions depend on their own reads clauses. -/
structure Rerun {M : Model} (Δ : Vocabulary) (env : Env) (f : Function) (old ρ : M.Valuation)
    (h' : M.Val) : Prop where
  sorted : M.Sorted Δ
  extensional : M.Extensional
  globals : Respects Δ.global old
  scope : ∃ G, Scope Δ env f.bodyView f.owner.isSome f.typing G ∧ Respects G ρ
  receiver : f.owner.isSome = true → ρ Naming.this ≠ ρ "null"
  later : M.carrier Prelude.heapSort h'
  agree : AgreeOnFrame env old f.bodyView f.reads ρ h'
  framed : ∀ p g, env.context.function p = .ok g → g.reads.isEmpty = false →
    g.Framed p env old f.bodyView ρ h'

variable {Δ : Vocabulary} {env₀ : Env}

theorem bodyView_apart (f : Function) : f.bodyView.Apart := by
  constructor
  · simp [bodyView, factView, Prelude.heapVar, Prelude.heapName, IL.Expr.names, Naming.this,
      Naming.objVar]
  · cases h : f.owner <;> simp [bodyView, factView, h, Naming.this, Naming.objVar]

theorem bodyView_thisName (f : Function) : f.bodyView.this.getD Naming.this = Naming.this := by
  cases h : f.owner <;> simp [bodyView, factView, h]

/-- The values of the measure have their sorts. -/
theorem measure_sorted (hS : Signed Δ env₀)
    (hf : f.ContractTyped env₀.context (.lowering env₀ f.bodyView)) {env : Env}
    (hsame : env.Same env₀) {olds : List MeasureValue}
    (h : (Termination.values f.bodyView f.measure).Returns env olds) :
    ∀ o ∈ olds, SortedAs Δ env₀ f.bodyView f.owner.isSome f.typing o.expr o.sort := by
  intro o ho
  obtain ⟨n, rfl⟩ := List.mem_iff_get.1 ho
  obtain ⟨hlen, hvalues⟩ := List.forall₂_iff_get.1 (ExprM.returns_mapM.1 h)
  have hn : n < f.measure.exprs.length := by omega
  have hreturns := hvalues n hn n.isLt
  obtain ⟨e, he, htyped⟩ := measure_typed hf _ (List.get_mem f.measure.exprs ⟨n, hn⟩)
  obtain ⟨a, ha, hsorted⟩ := lowerExpr_sorted hS htyped fun _ hx => hx
  rw [he] at hreturns
  simp only [ExprM.returns_bind, ExprM.returns_pure] at hreturns
  obtain ⟨b, hb, heq⟩ := hreturns
  obtain rfl := ha.unique (((lowerExpr_stable e f.bodyView).returns hsame).2 hb)
  rw [show olds.get n = ⟨e.typ, a, false⟩ from heq]
  exact hsorted

/-- What the body is checked against is well typed. -/
theorem Typed.checkable {c : Context} {handles handles' : List FieldHandle}
    (h : f.Typed Δ (f.env c handles') e) (hdeclared : c.Declared handles')
    (hsub : handles <:+ handles') {olds : List MeasureValue}
    (holds : (Termination.values f.bodyView f.measure).Returns (f.env c handles) olds) :
    Checkable Δ (f.env c handles') f.bodyView f.owner.isSome f.typing (f.bodyLimits olds) := by
  have hS : Signed Δ (f.env c handles') :=
    ⟨h.covers, fun _ hg => Env.handle_of_declared hdeclared hg⟩
  have hsame : (f.env c handles).Same (f.env c handles') := by
    refine ⟨rfl, rfl, rfl, fun g hg => ?_⟩
    rw [hS.handle g hg, Env.handle_of_declared (fun k hk => hdeclared k (hsub.subset hk)) hg]
  refine ⟨hS, f.bodyView_apart, h.contracts, ?_, ?_, ?_⟩
  · intro frame hframe x hx
    obtain rfl : f.reads = frame := Option.some.inj hframe
    exact h.own.reads x hx
  · intro entry hentry
    obtain rfl := Option.some.inj hentry
    exact measure_sorted hS h.own hsame holds
  · refine Typing.bind_of_notMem fun hmem => ?_
    obtain ⟨b, hb, hname⟩ := List.mem_map.1 hmem
    exact h.params b hb hname

end Source.Function

/-- A function is lowered with a procedure that ends in a choice. If no execution of the second
branch violates an assertion in a state, the lowered body has the same value there and in a later
heap that agrees with the current one on the reads clause. It is supposed that bound variables
are apart from the parameters, that the objects that are read are allocated, and that it does not
matter which objects are. -/
theorem body_unchanged {c : Context} {f : Function} {e : Source.Expr} {s s' : Progress}
    (hbody : f.body = some e) (hreads : c.options.checkReads = true)
    (h : f.lower.Gives c s () s') (hdeclared : c.Declared s'.handles) :
    ∃ locals before post branch handles,
      .implementation
        { name := Naming.proc f.name .checkWellformed
          params := f.thisBinder ++ sortBinders f.params, outs := [], locals
          body := before ++ [.ifElse none post branch] } ∈ s'.emitted.rev ∧
      handles <:+ s'.handles ∧
      ∀ {M : Model} (Δ : Vocabulary) (old ρ : M.Valuation) (h' : M.Val),
        f.Typed Δ (f.env c handles) e → f.Rerun Δ (f.env c handles) old ρ h' →
        (∀ procs tr k, Exec procs old branch ρ tr k → tr.Safe) →
        (∀ p, Visits (f.env c handles) old ⟨f.bodyView, e, ρ⟩ p →
          p.Live (f.env c handles) old ∧ p.Steady (f.env c handles) old Prelude.heapName h') →
        ∀ a, (lowerExpr f.bodyView e).Returns (f.env c handles) a →
          a.eval old (Function.update ρ Prelude.heapName h') = a.eval old ρ := by
  obtain ⟨locals, before, post, branch, olds, handles, handles', s₁, s₂, hmem, -, hsub, hsub',
    holds, henv, hbranch⟩ := f.lower_branch hbody h
  rw [f.entryLimits_eq hreads] at hbranch
  refine ⟨locals, before, post, branch, handles', hmem, hsub', ?_⟩
  intro M Δ old ρ h' htyped hrerun hsafe htame a ha
  have hcheckable := htyped.checkable (fun k hk => hdeclared k (hsub'.subset hk)) hsub holds
  have hreplay : Replay Δ (f.env c handles') f.bodyView f.owner.isSome f.typing (f.bodyLimits olds)
      f.reads Prelude.heapName old ρ h' :=
    { checkable := hcheckable, reads := rfl, heap := rfl, oldHeap := rfl
      thisName := f.bodyView_thisName, sorted := hrerun.sorted, globals := hrerun.globals
      extensional := hrerun.extensional, scope := hrerun.scope, receiver := hrerun.receiver
      later := hrerun.later, agree := hrerun.agree, framed := hrerun.framed }
  obtain ⟨checks, rest, rfl, hchecks⟩ := Source.Function.checkBody_definedness hbranch
  rw [henv] at hchecks
  have hchecked :
      Point.Checked (f.env c handles') (f.bodyLimits olds) old ρ ⟨f.bodyView, e, ρ⟩ := by
    refine ⟨[], checks, rfl, hchecks, fun cond hcond => ?_⟩
    obtain ⟨k, hexec⟩ :=
      (Exec.of_conditions [] old ρ (check_conditions e _ _ _ _ _ hchecks)).exists_append rest
    exact hsafe _ _ _ hexec _ _ _ (mem_events_asserted.2 ⟨rfl, rfl, hcond⟩)
  exact (lowerExpr_unchanged hreplay htyped.body ρ (.refl hreplay) ⟨hchecked, htame⟩ a ha).eval

/-! ## A body that reads an array -/

namespace FirstElement

open Standard hiding Store

/-- The first element of an array. -/
def body : Source.Expr :=
  .index ⟨default, .int⟩ (.mkVar default "a" (.array .int)) (.mkInt default 0)

/-- A function with this body that reads the array. -/
def function : Function :=
  { (default : Function) with
    name := ⟨"M", ["C", "get"]⟩, params := [("a", .array .int)], result := ("r", .int)
    reads := [.mkVar default "a" (.array .int)], body := some body }

def context : Context := { functions := [function] }

/-- The environment in which the body is checked. -/
abbrev env : Env := function.env context []

/-- What the body is lowered to. -/
def lowered : IL.Expr :=
  .app "$Unbox.int" [Prelude.read Prelude.heapVar (.var "a") (.app "IndexField" [.nat 0])]

/-- The code of an implementation. -/
def codeOf? : IL.Decl → Option (List IL.Stmt)
  | .implementation impl => some impl.body
  | _ => none

/-- What is asserted of the body: it reads an element of an array that it may read. -/
def asserted : List IL.Expr :=
  [.not (.eq (.var "a") Prelude.null), .eq (.var "a") (.var "a"),
    .conj [.le (.nat 0) (.nat 0), .lt (.nat 0) (.app "array.Length" [.var "a"])]]

/-- The branch that checks the body. -/
def branch : List IL.Stmt :=
  [.assert (.error "target object may be null" default) (.not (.eq (.var "a") Prelude.null)),
    .assert (.error "insufficient reads clause to read array element" default)
      (.eq (.var "a") (.var "a")),
    .assert (.error "index out of range" default)
      (.conj [.le (.nat 0) (.nat 0), .lt (.nat 0) (.app "array.Length" [.var "a"])]),
    .assign "r" lowered]

theorem lower_eq : (function.lower context {}).1 = .ok () ∧
    (function.lower context {}).2.handles = [] ∧
    (function.lower context {}).2.emitted.rev.filterMap codeOf? =
      [[.ifElse none [.havoc "r", .assume .ff] branch]] :=
  have h : ((function.lower context {}).1, (function.lower context {}).2.handles,
      (function.lower context {}).2.emitted.rev.filterMap codeOf?) =
      (.ok (), [], [[.ifElse none [.havoc "r", .assume .ff] branch]]) := by cbv
  ⟨congrArg (·.1) h, congrArg (·.2.1) h, congrArg (·.2.2) h⟩

theorem returns : (lowerExpr function.bodyView body).Returns env lowered := rfl

/-! ### Sorts -/

/-- The functions of the prelude, and the function itself. -/
def functions : List (String × List Srt × Srt) :=
  Prelude.functions.map (fun f => (f.1, f.2.1.map Srt.ofName, Srt.ofName f.2.2)) ++
    [("M.C.get", [Prelude.heapSort, Prelude.refSort], .int),
     ("canCall%M.C.get", [Prelude.heapSort, Prelude.refSort], .bool)]

def vocabulary : Vocabulary where
  func f := functions.lookup f
  global _ := none

theorem eq_of_function {p : Path} {g : Function} (h : context.function p = .ok g) :
    p = function.name ∧ g = function := by
  obtain ⟨hmem, hname⟩ := Context.mem_of_orBroken h
  obtain rfl : g = function := by simpa [context] using hmem
  exact ⟨by simpa [eq_comm] using hname, rfl⟩

theorem covers : vocabulary.Covers context where
  prelude := fun _ hf => Prelude.lookup_functions _ hf
  fields := nofun
  ctors := nofun
  functions := by
    intro p f hf l hl
    obtain ⟨rfl, rfl⟩ := eq_of_function hf
    have hrec : context.calls.isRecursive function.name = false := by cbv
    rw [hrec] at hl
    simp only [Source.Function.layers, Bool.false_eq_true, if_false, List.append_nil, List.mem_cons,
      List.not_mem_nil, or_false] at hl
    rcases hl with rfl | rfl <;> show List.lookup _ _ = _ <;> decide +kernel

theorem heapNames {y : String}
    (h : y ∈ function.bodyView.heap.names ++ function.bodyView.oldHeap.names) : y = "$Heap" := by
  simpa [Source.Function.bodyView, Source.Function.factView, Prelude.heapVar, Prelude.heapName,
    Expr.names] using h

theorem not_reserved {y : String} (h : Reserved env function.bodyView y) : y.toList.tail ≠ [] := by
  cases h with
  | const h =>
    simp only [preludeConstants, List.mem_cons, List.not_mem_nil, or_false] at h
    rcases h with rfl | rfl | rfl | rfl | rfl | rfl <;> decide
  | cls p => simp [Naming.cls]
  | field hf => cases hf
  | this => decide
  | heap h =>
    obtain rfl := heapNames (List.mem_append_left _ h)
    decide
  | oldHeap h =>
    obtain rfl := heapNames (List.mem_append_right _ h)
    decide
  | generated h =>
    cases h with
    | box => decide
    | boxAt d => simp [WhereClause.boxVar, Naming.boxVar]
    | indexAt d => simp [WhereClause.indexVar, Naming.indexVar]

/-- An array of one element, and another object. -/
def array : Ref := .object "array" 0 1

def other : Ref := .object "other" 0 0

/-- A heap where only the array is allocated. -/
noncomputable def before : Standard.Store :=
  Val.emptyStore.set array .alloc (Val.toCode (.bool true))

/-- The heap after the other object is allocated. -/
noncomputable def after : Standard.Store :=
  before.set other .alloc (Val.toCode (.bool true))

/-- The values of the constants and of the array, in the first heap. Classes stand for
themselves. -/
noncomputable def valueOf? (x : String) : Option Val :=
  if x.toList.take 6 = "class%".toList then some (.cls x)
  else [(Prelude.heapName, Val.heap before), ("null", .ref .null), ("alloc", .field .alloc),
    ("Set.Empty", .set ∅), ("MultiSet.Empty", .multiset 0), ("Seq.Empty", .seq []),
    ("Map.Empty", .map 0), ("a", .ref array)].lookup x

/-- Their sorts. -/
noncomputable def sorts : Sorts := fun x => (valueOf? x).map Val.sort

theorem typing_eq : function.typing = fun y => if y = "a" then some (.array .int) else none := by
  funext y
  by_cases hy : y = "a" <;> simp [Source.Function.typing, function, Typing.bind, hy]

theorem scope : Scope vocabulary env function.bodyView false function.typing sorts where
  vars {y t} hy := by
    simp only [typing_eq, Option.ite_none_right_eq_some, Option.some.injEq] at hy
    obtain ⟨rfl, rfl⟩ := hy
    exact ⟨fun h => not_reserved h rfl, rfl⟩
  null := rfl
  alloc := rfl
  setEmpty := rfl
  multisetEmpty := rfl
  seqEmpty := rfl
  mapEmpty := rfl
  cls p := by
    have hcls : valueOf? (Naming.cls p) = some (.cls (Naming.cls p)) := by
      simp [valueOf?, Naming.cls]
    simp only [sorts, hcls]
    rfl
  field := nofun
  this := nofun
  thisName h := absurd h.start (by decide)
  heap hG := hG "$Heap" (by decide)
  oldHeap hG := hG "$Heap" (by decide)
  heapNames y hy h := by
    obtain rfl := heapNames hy
    exact absurd h.start (by decide)

/-- The array, as a variable. -/
theorem array_wellTyped {D : Discipline} :
    WellTyped context D false function.typing (.mkVar default "a" (.array .int)) :=
  .var (by rw [typing_eq]; rfl)

theorem contractTyped {D : Discipline} (hD : D.binder "a") : function.ContractTyped context D where
  nodup := by decide
  params := by
    intro b hb
    obtain rfl : b = ("a", .array .int) := by simpa [function] using hb
    exact hD
  requires := nofun
  reads := by
    intro e he
    obtain rfl := List.mem_singleton.1 he
    exact ⟨.inl rfl, array_wellTyped⟩
  decreases := nofun

theorem typed : function.Typed vocabulary env body where
  covers := covers
  contracts p g hg := by
    obtain ⟨rfl, rfl⟩ := eq_of_function hg
    exact contractTyped ⟨fun h => not_reserved h rfl, by decide⟩
  own := contractTyped fun h => not_reserved h rfl
  params := by
    intro b hb
    obtain rfl : b = ("a", .array .int) := by simpa [function] using hb
    decide
  body := .index ⟨rfl, .inl rfl⟩ array_wellTyped (.int rfl)

/-! ### Two heaps -/

/-- The function gives the first element. -/
noncomputable def interp : Interp :=
  { Interval.nothing with
    func := fun f args =>
      if f = "M.C.get" then
        Val.unbox .int ((args.getD 0 .lambda).toStore.get (args.getD 1 .lambda).toRef (.index 0))
      else .bool true }

/-- A value of every sort, those included that are not declared. -/
theorem carrier_default (s : Srt) :
    (Val.default s).sort = s ∨ (Val.default s).sort ≠ s ∧ Val.default s = .default s :=
  or_iff_not_imp_left.2 fun h => ⟨h, rfl⟩

theorem carrier_iff_of_default {s : Srt} (h : (Val.default s).sort = s) {v : Val} :
    (v.sort = s ∨ (Val.default s).sort ≠ s ∧ v = .default s) ↔ v.sort = s :=
  or_iff_left fun hn => hn.1 h

/-- The standard model, with a value of every sort. -/
noncomputable def model : Model :=
  { Standard.model interp with
    carrier := fun s v => v.sort = s ∨ (Val.default s).sort ≠ s ∧ v = .default s
    carrier_bool := fun _ =>
      (carrier_iff_of_default rfl).trans ((Standard.model interp).carrier_bool _)
    carrier_int := fun _ =>
      (carrier_iff_of_default rfl).trans ((Standard.model interp).carrier_int _) }

theorem carrier_iff {s : Srt} (h : (Val.default s).sort = s) {v : Val} :
    model.carrier s v ↔ v.sort = s := carrier_iff_of_default h

theorem app_read (h : Standard.Store) (r : Ref) (f : Fld) :
    model.app "read" [Val.heap h, Val.ref r, Val.field f] = Val.box (h.get r f) :=
  app_op (I := interp) .read [.heap h, .ref r, .field f]

theorem app_indexField (n : ℤ) : model.app "IndexField" [Val.int n] = Val.field (.index n) :=
  app_op (I := interp) .indexField [.int n]

theorem app_fromArray (h : Standard.Store) (r : Ref) :
    model.app "Seq.FromArray" [Val.heap h, Val.ref r] =
      Val.seq ((List.range r.length).map fun i : ℕ => h.get r (.index i)) :=
  app_op (I := interp) .seqFromArray [.heap h, .ref r]

theorem app_get (h : Standard.Store) (r : Ref) :
    model.app "M.C.get" [Val.heap h, Val.ref r] = Val.unbox .int (h.get r (.index 0)) :=
  app_func (I := interp) (f := "M.C.get") (by decide) _

theorem result_prelude : ∀ g ∈ Prelude.functions,
    (Op.ofName? g.1).map Op.result = some (Srt.ofName g.2.2) := by
  decide +kernel

theorem sorted : model.Sorted vocabulary where
  app {f ss s as} hf has := by
    replace hf : functions.lookup f = some (ss, s) := hf
    have hmem : (f, ss, s) ∈ functions := by
      obtain ⟨l₁, l₂, hl, -⟩ := List.lookup_eq_some_iff.1 hf
      simp [hl]
    rcases List.mem_append.1 hmem with h | h
    · obtain ⟨g, hg, heq⟩ := List.mem_map.1 h
      cases heq
      obtain ⟨op, hop, hs⟩ := Option.map_eq_some_iff.1 (result_prelude g hg)
      exact .inl (hs ▸ sort_app hop as)
    · simp only [List.mem_cons, Prod.mk.injEq, List.not_mem_nil, or_false] at h
      rcases h with ⟨rfl, -, rfl⟩ | ⟨rfl, -, rfl⟩
      · have hvalue := app_func (I := interp) (f := "M.C.get") (by decide) as
        exact .inl ((congrArg Val.sort hvalue).trans (Val.sort_unbox _ _))
      · have hvalue := app_func (I := interp) (f := "canCall%M.C.get") (by decide) as
        exact .inl (congrArg Val.sort hvalue)
  lam _ := .inl rfl
  applyLam s _ _ := carrier_default s

theorem extensional : model.Extensional where
  fromPredicate _ _ _ := rfl
  glue _ _ _ _ := rfl
  fromArray h h' a hh hh' ha hsame := by
    obtain ⟨st, rfl⟩ := Val.sort_eq_heap.1 ((carrier_iff rfl).1 hh)
    obtain ⟨st', rfl⟩ := Val.sort_eq_heap.1 ((carrier_iff rfl).1 hh')
    obtain ⟨r, rfl⟩ := Val.sort_eq_ref.1 ((carrier_iff rfl).1 ha)
    have hget (i : ℕ) : st'.get r (.index i) = st.get r (.index i) := by
      have hread := hsame (Val.int i) ((carrier_iff rfl).2 rfl)
      rw [app_indexField] at hread
      exact Val.box.inj (((app_read st' r _).symm.trans hread).trans (app_read st r _))
    rw [app_fromArray, app_fromArray, funext hget]

/-- A state with these values. -/
noncomputable def state : model.Valuation := fun x => (valueOf? x).getD .lambda

theorem respects : Respects sorts state := by
  intro x s hx
  obtain ⟨v, hv, rfl⟩ := Option.map_eq_some_iff.1 hx
  exact .inl (congrArg (fun o => (o.getD Val.lambda).sort) hv)

theorem get_after {r : Ref} {f : Fld} (h : r ≠ other ∨ f ≠ .alloc) :
    after.get r f = before.get r f :=
  if_neg fun heq => h.elim (fun hr => hr heq.1.symm) fun hf => hf heq.2.symm

theorem agree (old : model.Valuation) : AgreeOnFrame env old function.bodyView
    function.reads state (Val.heap after) := by
  have hcontained : (frameContains function.bodyView function.reads Heap.obj).Returns env
      (.disj [.eq Heap.obj (.var "a")]) := rfl
  intro contained hc o f ho hf hholds
  obtain rfl := hcontained.unique hc
  obtain ⟨r, rfl⟩ := Val.sort_eq_ref.1 ((carrier_iff rfl).1 ho)
  obtain ⟨g, rfl⟩ := Val.sort_eq_field.1 ((carrier_iff rfl).1 hf)
  obtain ⟨e, he, heq⟩ := (holds_disj _).1
    ((holds_conj _).1 hholds (.disj [.eq Heap.obj (.var "a")]) (by simp))
  obtain rfl := List.mem_singleton.1 he
  obtain rfl : r = array := Val.ref.inj ((holds_eq Heap.obj (.var "a")).1 heq)
  have hget : after.get array g = before.get array g := get_after (.inl (by simp [array, other]))
  exact (app_read after array g).trans
    ((congrArg Val.box hget).trans (app_read before array g).symm)

theorem framed (old : model.Valuation) : function.Framed function.name env old
    function.bodyView state (Val.heap after) := by
  have hlayer : (callLayer function.bodyView function.name).Returns env .normal := by
    cbv
  intro as has τ _ _ layer hl
  obtain rfl := hlayer.unique hl
  obtain ⟨v, _, hv, hnil, rfl⟩ := List.forall₂_cons_left_iff.1 has
  obtain rfl := List.forall₂_nil_left_iff.1 hnil
  obtain ⟨r, rfl⟩ := Val.sort_eq_ref.1 ((carrier_iff rfl).1 hv)
  have hget : after.get r (.index 0) = before.get r (.index 0) :=
    get_after (.inr (by simp [Fld.alloc]))
  exact (app_get after r).trans ((congrArg (Val.unbox .int) hget).trans (app_get before r).symm)

theorem rerun : function.Rerun vocabulary env state state (Val.heap after) where
  sorted := sorted
  extensional := extensional
  globals := nofun
  scope := ⟨sorts, scope, respects⟩
  receiver := nofun
  later := (carrier_iff rfl).2 rfl
  agree := agree state
  framed p g hg _ := by
    obtain ⟨rfl, rfl⟩ := eq_of_function hg
    exact framed state

/-- An assertion that holds is safe if the rest of the code is. -/
theorem safe_assert {M : Model} {procs : List Procedure} {old ρ : M.Valuation} {tr : Trace M}
    {k : Ending M} {msg : Message} {e : IL.Expr} {ss : List IL.Stmt} (he : Holds old ρ e)
    (hss : ∀ tr k, Exec procs old ss ρ tr k → tr.Safe)
    (h : Exec procs old (.assert msg e :: ss) ρ tr k) : tr.Safe := by
  cases h with
  | cut => exact nofun
  | step hs hrest =>
    cases hs
    intro old' ρ' e' hmem
    rcases List.mem_cons.1 hmem with heq | hmem
    · cases heq
      exact he
    · exact hss _ _ hrest _ _ _ hmem
  | through ho | leftIt ho | escape ho => cases ho

theorem isAllocated_array : Val.unbox .bool (before.get array .alloc) = .bool true := by
  have hget : before.get array .alloc = Val.toCode (.bool true) := if_pos ⟨rfl, rfl⟩
  rw [hget]
  exact Val.unbox_toCode rfl

theorem app_unboxBool (n : ℕ) : model.app "$Unbox.bool" [Val.box n] = Val.unbox .bool n :=
  app_op (I := interp) (.unbox .bool) [.box n]

theorem app_length (r : Ref) : model.app "array.Length" [Val.ref r] = Val.int r.length :=
  app_op (I := interp) .arrayLength [.ref r]

theorem asserted_hold : ∀ e ∈ asserted, Holds state state e := by
  refine List.forall_mem_cons.2 ⟨?_, List.forall_mem_cons.2 ⟨?_, List.forall_mem_singleton.2 ?_⟩⟩
  · refine (holds_not _).2 fun heq => ?_
    cases (holds_eq (.var "a") Prelude.null).1 heq
  · exact (holds_eq (.var "a") (.var "a")).2 rfl
  · refine (holds_conj [_, _]).2 (List.forall_mem_cons.2 ⟨?_, List.forall_mem_singleton.2 ?_⟩)
    · exact (holds_le (.nat 0) (.nat 0)).2 (Int.le_refl _)
    · rw [holds_lt, Expr.eval_nat, model.toInt_ofInt]
      exact (congrArg model.toInt (app_length array)).symm ▸ Int.zero_lt_one

theorem safe {procs : List Procedure} {tr : Trace model} {k : Ending model}
    (h : Exec procs state branch state tr k) : tr.Safe := by
  have hassigns (tr : Trace model) (k : Ending model)
      (h : Exec procs state [.assign "r" lowered] state tr k) : tr.Safe := by
    cases h with
    | cut => exact nofun
    | step hs hrest =>
      cases hs
      cases hrest <;> simp [Trace.Safe]
    | through ho | leftIt ho | escape ho => cases ho
  exact safe_assert (asserted_hold _ (by simp [asserted])) (fun _ _ => safe_assert
    (asserted_hold _ (by simp [asserted])) fun _ _ => safe_assert
    (asserted_hold _ (by simp [asserted])) hassigns) h

theorem tame (p : Point model) (h : Visits env state ⟨function.bodyView, body, state⟩ p) :
    p.Live env state ∧ p.Steady env state Prelude.heapName (Val.heap after) := by
  rcases h.cases_head with rfl | ⟨q, hpart, hrest⟩
  · refine ⟨fun elem o _ ho => ?_, by simp [body], by simp [body, Source.Expr.bound?]⟩
    have ha : (lowerExpr function.bodyView (.mkVar default "a" (.array .int))).Returns env
        (.var "a") := rfl
    obtain rfl := ha.unique ho
    refine holds_isAlloc.2 ?_
    exact (congrArg (fun v => model.app "$Unbox.bool" [v]) (app_read before array .alloc)).trans
      ((app_unboxBool _).trans isAllocated_array)
  · cases hpart with
    | @operand v e a σ ha =>
      obtain rfl | rfl : a = .mkVar default "a" (.array .int) ∨ a = .mkInt default 0 := by
        simpa [body, Source.Expr.operands] using ha
      all_goals
        rcases hrest.cases_head with rfl | ⟨_, hpart, -⟩
        · exact ⟨trivial, by simp [Source.Expr.mkInt, Source.Expr.mkVar],
            by simp [Source.Expr.mkInt, Source.Expr.mkVar, Source.Expr.bound?]⟩
        · cases hpart with
          | operand ha => cases ha
          | range he | body he => cases he
    | range he | body he => cases he

/-- What the function is lowered to. -/
theorem lowers : ∃ s', function.lower.Gives context {} () s' ∧ s'.handles = [] ∧
    s'.emitted.rev.filterMap codeOf? = [[.ifElse none [.havoc "r", .assume .ff] branch]] :=
  ⟨_, Prod.ext lower_eq.1 rfl, lower_eq.2⟩

end FirstElement

/-- The first element of an array is the same after another object is allocated. -/
theorem body_unchanged_first : ∃ s' a,
    FirstElement.function.lower.Gives FirstElement.context {} () s' ∧
    (lowerExpr FirstElement.function.bodyView FirstElement.body).Returns FirstElement.env a ∧
    a.eval FirstElement.state (Function.update FirstElement.state Prelude.heapName
      (Standard.Val.heap FirstElement.after)) = a.eval FirstElement.state FirstElement.state := by
  obtain ⟨s', hgives, hhandles, hcode⟩ := FirstElement.lowers
  obtain ⟨locals, before, post, branch, handles, hmem, hsub, hunchanged⟩ :=
    body_unchanged rfl rfl hgives (by rw [hhandles]; exact nofun)
  obtain rfl : handles = [] := by simpa [hhandles] using hsub
  have hbody : before ++ [.ifElse none post branch] ∈
      s'.emitted.rev.filterMap FirstElement.codeOf? := List.mem_filterMap.2 ⟨_, hmem, rfl⟩
  rw [hcode, List.mem_singleton] at hbody
  obtain ⟨-, hlast⟩ := List.append_inj' (hbody.trans (List.nil_append _).symm) rfl
  cases hlast
  exact ⟨s', _, hgives, FirstElement.returns, hunchanged FirstElement.vocabulary FirstElement.state
    FirstElement.state _ FirstElement.typed FirstElement.rerun (fun _ _ _ => FirstElement.safe)
    FirstElement.tame _ FirstElement.returns⟩

/-! ## A body that looks at what is allocated -/

namespace Allocating

open Standard hiding Store

/-- That every object is null. -/
def body : Source.Expr :=
  .quant ⟨default, .bool⟩ .all [("o", .object)] none
    (.mkRel default .eq (.mkVar default "o" .object) (.null ⟨default, .object⟩)) [] .default

/-- A function with this body that reads nothing. -/
def function : Function :=
  { (default : Function) with
    name := ⟨"M", ["C", "none"]⟩, result := ("r", .bool), body := some body }

def context : Context := { functions := [function] }

/-- What the body is lowered to. -/
def lowered : IL.Expr :=
  .all [("o", Prelude.refSort)] [[Prelude.read Prelude.heapVar (.var "o") Prelude.alloc]]
    (.imp (.disj [.eq (.var "o") Prelude.null, Heap.isAlloc Prelude.heapVar (.var "o")])
      (.eq (.var "o") Prelude.null))

/-- The implementation that checks the function. -/
def check : IL.Implementation where
  name := Naming.proc function.name .checkWellformed
  params := []
  outs := []
  locals := [("r", .bool)]
  body := [.ifElse none [.havoc "r", .assume .ff] [.assign "r" lowered]]

theorem lower_eq : (function.lower context {}).1 = .ok () ∧
    (function.lower context {}).2.emitted.rev.head? = some (.implementation check) :=
  have h : ((function.lower context {}).1, (function.lower context {}).2.emitted.rev.head?) =
      (.ok (), some (.implementation check)) := by cbv
  Prod.mk.inj h

theorem gives : ∃ s', function.lower.Gives context {} () s' ∧
    .implementation check ∈ s'.emitted.rev :=
  ⟨_, Prod.ext lower_eq.1 rfl, List.mem_of_mem_head? lower_eq.2⟩

theorem returns : (lowerExpr function.bodyView body).Returns (Progress.env {} context) lowered :=
  rfl

/-- A state with a heap. -/
noncomputable def state (h : Standard.Store) : String → Val :=
  Function.update (Interval.state 0 0 0) Prelude.heapName (.heap h)

theorem update_state (h h' : Standard.Store) :
    Function.update (state h) Prelude.heapName (.heap h') = state h' := Function.update_idem _ _ _

/-- A heap where every object is allocated. -/
noncomputable def full : Standard.Store := ⟨fun _ _ => Val.toCode (.bool true), True⟩

/-- The body is true in a heap if no object is allocated there. -/
theorem isTrue_lowered {old : String → Val} {h : Standard.Store} :
    IsTrue Interval.nothing old (state h) lowered ↔
      ∀ r : Ref, IsAllocated (state h) h (.ref r) → r = .null := by
  have hnull (r : Ref) : IsTrue Interval.nothing old (Function.update (state h) "o" (.ref r))
      (.eq (.var "o") Prelude.null) ↔ r = .null := by
    rw [isTrue_eq]
    exact (Val.ref.injEq r .null).to_iff
  have halloc (r : Ref) : IsTrue Interval.nothing old (Function.update (state h) "o" (.ref r))
      (Heap.isAlloc Prelude.heapVar (.var "o")) ↔ IsAllocated (state h) h (.ref r) :=
    isTrue_isAlloc (ν := state h) rfl rfl
  rw [lowered, isTrue_all_one]
  simp only [isTrue_imp, isTrue_disj, List.exists_mem_cons_iff, List.not_mem_nil, false_and,
    exists_false, or_false]
  constructor
  · intro hall r hr
    exact (hnull r).1 (hall (.ref r) rfl (.inr ((halloc r).2 hr)))
  · intro hnone v hv hor
    obtain ⟨r, rfl⟩ := Val.sort_eq_ref.1 hv
    exact hor.elim id fun h => (hnull r).2 (hnone r ((halloc r).1 h))

theorem isGoodHeap {h : Standard.Store} (hintact : h.intact) :
    (Standard.model Interval.nothing).truth
      ((Standard.model Interval.nothing).app "$IsGoodHeap" [Val.heap h]) :=
  (app_op .isGoodHeap [.heap h]).trans (Val.ofProp_eq_true.2 ⟨hintact, trivial⟩)

/-- Every heap comes after the one without objects. -/
theorem heapSucc_empty {h : Standard.Store} :
    (Standard.model Interval.nothing).truth
      ((Standard.model Interval.nothing).app "$HeapSucc" [Val.heap Val.emptyStore, Val.heap h]) :=
  (app_op .heapSucc [.heap Val.emptyStore, .heap h]).trans (Val.ofProp_eq_true.2 fun r hr =>
    (not_isAllocated_emptyStore (state Val.emptyStore) (.ref r) hr).elim)

theorem isAllocated_full (ν : String → Val) (r : Ref) : IsAllocated ν full (.ref r) := by
  have htrue : Val.unbox .bool (Val.toCode (.bool true)) = .bool true := Val.unbox_toCode rfl
  exact htrue

theorem agree (old : String → Val) (h h' : Standard.Store) :
    AgreeOnFrame (M := Standard.model Interval.nothing) (Progress.env {} context) old
      function.bodyView function.reads (state h) (Val.heap h') := by
  have hnone : (frameContains function.bodyView function.reads Heap.obj).Returns
      (Progress.env {} context) (.disj []) := rfl
  intro contained hcontained o f _ _ hholds
  obtain rfl := hnone.unique hcontained
  have hcase := (holds_conj _).1 hholds (.disj []) (by simp)
  exact absurd ((holds_disj _).1 hcase) (by simp)

theorem preludeState (h : Standard.Store) :
    Model.PreludeState (M := Standard.model Interval.nothing) (.ref .null) (state h) (state h) :=
  { satisfiesPrelude Interval.nothing ⟨rfl, rfl, rfl, rfl, rfl⟩ with null := rfl }

end Allocating

/-- The check of a function that reads nothing asserts nothing of its body, which tells two good
heaps apart by what is allocated in them. -/
theorem body_changed_of_alloc : ∃ s' : Progress,
    Allocating.function.lower.Gives Allocating.context {} () s' ∧
    .implementation Allocating.check ∈ s'.emitted.rev ∧
    ∃ post branch, Allocating.check.body = [.ifElse none post branch] ∧
      (∀ (M : Model) (old ρ : M.Valuation) procs tr k, Exec procs old branch ρ tr k → tr.Safe) ∧
      ∃ (M : Model) (nil : M.Val) (old ρ : M.Valuation) (h' : M.Val) (a : IL.Expr),
        Model.PreludeState nil old ρ ∧
        M.truth (M.app "$IsGoodHeap" [ρ Prelude.heapName]) ∧ M.truth (M.app "$IsGoodHeap" [h']) ∧
        M.truth (M.app "$HeapSucc" [ρ Prelude.heapName, h']) ∧
        AgreeOnFrame (Progress.env {} Allocating.context) old Allocating.function.bodyView
          Allocating.function.reads ρ h' ∧
        (lowerExpr Allocating.function.bodyView Allocating.body).Returns
          (Progress.env {} Allocating.context) a ∧
        a.eval old (Function.update ρ Prelude.heapName h') ≠ a.eval old ρ := by
  obtain ⟨s', hgives, hmem⟩ := Allocating.gives
  refine ⟨s', hgives, hmem, _, _, rfl, fun M old ρ procs tr k hexec => ?_,
    Standard.model Interval.nothing, .ref .null, Allocating.state Standard.Val.emptyStore,
    Allocating.state Standard.Val.emptyStore, Standard.Val.heap Allocating.full, Allocating.lowered,
    Allocating.preludeState _, ?_, ?_, ?_, ?_, Allocating.returns, ?_⟩
  · cases hexec with
    | cut => exact nofun
    | step hs hrest =>
      cases hs
      cases hrest <;> simp [Trace.Safe]
    | through ho | leftIt ho | escape ho => cases ho
  · exact Allocating.isGoodHeap trivial
  · exact Allocating.isGoodHeap trivial
  · exact Allocating.heapSucc_empty
  · exact Allocating.agree _ _ _
  · intro heq
    have htrue : Standard.IsTrue Interval.nothing (Allocating.state Standard.Val.emptyStore)
        (Function.update (Allocating.state Standard.Val.emptyStore) Prelude.heapName
          (.heap Allocating.full)) Allocating.lowered :=
      heq.trans (Allocating.isTrue_lowered.2 fun r hr =>
        (Standard.not_isAllocated_emptyStore _ _ hr).elim)
    rw [Allocating.update_state] at htrue
    cases Allocating.isTrue_lowered.1 htrue (.object "" 0 0) (Allocating.isAllocated_full _ _)

end ContractLowering
