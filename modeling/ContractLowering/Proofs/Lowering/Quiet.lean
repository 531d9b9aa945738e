import ContractLowering.Proofs.Lowering.Extends
import ContractLowering.Proofs.Lowering.Steps
import ContractLowering.Proofs.Source.Recursor

/-!
# The lowering of bodies is quiet

Whatever a statement is and whether or not its lowering fails, the state only grows, and nothing is
emitted but what expressions ask for (`Body.lowerStmt_grows`).
-/

namespace ContractLowering

open IL Source

-- the size of a solution counts every continuation twice, so it doubles with every step
set_option synthInstance.maxSize 100000

/-- A computation that, whether or not it fails, adds to the state and emits only what is asked
for. -/
class DeclM.Quiet {α : Type} (x : DeclM α) : Prop where
  grows : x.Grows

namespace DeclM.Quiet

variable {α β : Type}

instance (a : α) : (Pure.pure a : DeclM α).Quiet := ⟨.pure a⟩

instance {x : DeclM α} {f : α → DeclM β} [hx : x.Quiet] [hf : ∀ a, (f a).Quiet] :
    (x >>= f).Quiet := ⟨hx.grows.bind fun a => (hf a).grows⟩

instance (x : ExprM α) : (liftM x : DeclM α).Quiet := ⟨.ofExpr x⟩

instance : DeclM.context.Quiet := ⟨.context⟩

instance : DeclM.state.Quiet := ⟨.state⟩

instance (m : Message) : (DeclM.reject m : DeclM α).Quiet := ⟨.reject m⟩

instance : DeclM.freshId.Quiet := ⟨.freshId⟩

instance (x : String) (s : Srt) : (DeclM.declareLocal x s).Quiet := ⟨.declareLocal x s⟩

instance {f : α → DeclM β} {l : List α} [hf : ∀ a, (f a).Quiet] : (l.mapM f).Quiet :=
  ⟨.mapM fun a _ => (hf a).grows⟩

instance (v : View) (goal : Source.Expr) (induct : Bool) : (split v goal induct).Quiet :=
  ⟨split_grows v goal induct⟩

instance (v : View) (lhs : Lhs) : (forallLocation v lhs).Quiet := ⟨forallLocation_grows v lhs⟩

instance (outs : List Source.Binder) : (resultLocals outs).Quiet := ⟨resultLocals_grows outs⟩

instance (b : Body) (v : View) (witness : IL.Expr) (inv : Spec) :
    (LoopFrame.invariant b v witness inv).Quiet := ⟨LoopFrame.invariant_grows b v witness inv⟩

instance (v : View) (preHeap : IL.Expr) (assigned : List Source.Binder) :
    (LoopFrame.kept v preHeap assigned).Quiet := ⟨LoopFrame.kept_grows v preHeap assigned⟩

end DeclM.Quiet

/-- A computation that, whether or not it fails, adds to the state and emits only what is asked
for. -/
class BodyM.Quiet {α : Type} (x : BodyM α) : Prop where
  grows : x.run.Grows

namespace BodyM

variable {α β : Type}

namespace Quiet

theorem extends_of_emits {x : BodyM α} (hx : x.Quiet) {c : Context} {s s' : Progress} {a : α}
    {ss : List IL.Stmt} (h : x.Emits c s a ss s') : s.Extends s' :=
  hx.grows.extends_of_gives h

instance (a : α) : (Pure.pure a : BodyM α).Quiet := ⟨.pure _⟩

instance bind {x : BodyM α} {f : α → BodyM β} [hx : x.Quiet] [hf : ∀ a, (f a).Quiet] :
    (x >>= f).Quiet :=
  ⟨hx.grows.bind fun p => DeclM.Grows.bind (hf p.1).grows fun _ => .pure _⟩

instance ofDecl {x : DeclM α} [hx : x.Quiet] : (BodyM.ofDecl x).Quiet :=
  ⟨hx.grows.bind fun _ => .pure _⟩

instance {x : DeclM α} [hx : x.Quiet] : (liftM x : BodyM α).Quiet := ofDecl (x := x)

instance (x : ExprM α) : (liftM x : BodyM α).Quiet := ofDecl (x := liftM x)

instance (ss : List IL.Stmt) : (BodyM.add ss).Quiet := ⟨.pure _⟩

instance inside {x : BodyM α} [hx : x.Quiet] : (BodyM.inside x).Quiet :=
  ⟨hx.grows.bind fun _ => .pure _⟩

instance {x : BodyM Unit} [hx : x.Quiet] : (BodyM.block x).Quiet :=
  inferInstanceAs (BodyM.Quiet (BodyM.inside x >>= fun p => Pure.pure p.2))

instance {p : Prop} [Decidable p] {x y : BodyM α} [hx : x.Quiet] [hy : y.Quiet] :
    (if p then x else y).Quiet := by
  split
  · exact hx
  · exact hy

theorem mapM {f : α → BodyM β} {l : List α} (hf : ∀ a ∈ l, (f a).Quiet) : (l.mapM f).Quiet := by
  induction l with
  | nil => exact inferInstanceAs (BodyM.Quiet (Pure.pure []))
  | cons a l ih =>
    have ha := hf a (by simp)
    have hl := ih fun b hb => hf b (by simp [hb])
    rw [List.mapM_cons]
    infer_instance

instance {f : α → BodyM β} {l : List α} [hf : ∀ a, (f a).Quiet] : (l.mapM f).Quiet :=
  mapM fun a _ => hf a

instance {f : α → BodyM Unit} {l : List α} [hf : ∀ a, (f a).Quiet] : (l.forM f).Quiet := by
  induction l with
  | nil => exact inferInstanceAs (BodyM.Quiet (Pure.pure ()))
  | cons a l ih => exact inferInstanceAs (BodyM.Quiet (f a >>= fun _ => l.forM f))

instance {f : α → BodyM Unit} {l : List α} [hf : ∀ a, (f a).Quiet] : (forM l f).Quiet :=
  inferInstanceAs (l.forM f).Quiet

instance {f : α → BodyM Unit} {o : Option α} [hf : ∀ a, (f a).Quiet] : (o.forM f).Quiet := by
  cases o with
  | none => exact inferInstanceAs (BodyM.Quiet (Pure.pure ()))
  | some a => exact hf a

end Quiet

/-! ## Steps of bodies -/

instance (e : IL.Expr) : (assume e).Quiet := inferInstanceAs (add _).Quiet

instance (msg : Message) (e : IL.Expr) : (assert msg e).Quiet := inferInstanceAs (add _).Quiet

instance (x : String) : (havoc x).Quiet := inferInstanceAs (add _).Quiet

instance (x : String) (e : IL.Expr) : (assign x e).Quiet := inferInstanceAs (add _).Quiet

instance (o : Option IL.Expr) : (assume? o).Quiet := by
  cases o <;> unfold assume? <;> infer_instance

instance (x : String) (s : Srt) (e : IL.Expr) : (storeIn x s e).Quiet := by
  unfold storeIn
  infer_instance

instance (s : Srt) (e : IL.Expr) : (temp s e).Quiet := by
  unfold temp
  infer_instance

instance (v : View) (e : Source.Expr) : (define v e).Quiet := by
  unfold define
  infer_instance

instance (v : View) (e : Source.Expr) : (value v e).Quiet := by
  unfold value
  infer_instance

instance (v : View) (limits : Limits) (e : Source.Expr) : (defineAndAssume v limits e).Quiet := by
  unfold defineAndAssume
  cases e.typ <;> infer_instance

instance (obj : Source.Expr) (o : IL.Expr) : (assertNonNull obj o).Quiet := by
  unfold assertNonNull
  infer_instance

instance (e : Source.Expr) (t : Typ) (x : IL.Expr) : (assertNat e t x).Quiet := by
  unfold assertNat
  infer_instance

instance (o f b : IL.Expr) : (updateHeap o f b).Quiet := by
  unfold updateHeap assumeGoodHeap
  infer_instance

instance : havocHeap.Quiet := by
  unfold havocHeap
  infer_instance

instance (name : Nat → String) (vs : List MeasureValue) : (snapshot name vs).Quiet := by
  unfold snapshot
  infer_instance

end BodyM

section

variable (b : Body) (v : View)

instance (e : Source.Expr) (inherited : Bool) (note : String) :
    (b.assertGoal v e inherited note).Quiet := by
  unfold Body.assertGoal
  infer_instance

instance (note : String) (specs : List Spec) : (b.establish v note specs).Quiet := by
  unfold Body.establish
  infer_instance

instance (es : List Source.Expr) : (b.assignOuts v es).Quiet := by
  unfold Body.assignOuts
  infer_instance

/-! ## Assignments and calls -/

instance (t : Target) (e : IL.Expr) : (t.store e).Quiet := by
  cases t <;> unfold Target.store <;> infer_instance

instance (lhs : Lhs) : (Target.ofLhs v lhs).Quiet := by
  cases lhs <;> simp only [Target.ofLhs] <;> infer_instance

instance (p : Path) : (allocate p).Quiet := by
  unfold allocate
  infer_instance

instance (o : IL.Expr) (fields : List Field) : (assumeFields o fields).Quiet := by
  unfold assumeFields
  infer_instance

instance (a n : IL.Expr) (elem : Typ) : (assumeElements a n elem).Quiet := by
  unfold assumeElements
  infer_instance

instance (t : Typ) (rhs : Rhs) : (evalRhs v t rhs).Quiet := by
  cases rhs <;> unfold evalRhs <;> infer_instance

instance (s t : Store) : (assertDistinct s t).Quiet := by
  unfold assertDistinct
  split <;> infer_instance

instance (several : Bool) (t : Target) (x : IL.Expr) : (keepValue several t x).Quiet := by
  unfold keepValue
  infer_instance

instance (several : Bool) (p : (Lhs × Target) × Rhs) : (evalStore v several p).Quiet := by
  unfold evalStore
  infer_instance

instance (span : Span) (targets : List Target) : (rejectRepeated span targets).Quiet := by
  unfold rejectRepeated
  infer_instance

instance (span : Span) (lhss : List Lhs) (rhss : List Rhs) :
    (lowerAssign v span lhss rhss).Quiet := by
  rw [lowerAssign_eq]
  infer_instance

instance (x : String) (t : Typ) (rhs : Option Rhs) : (lowerVarDecl v x t rhs).Quiet := by
  cases rhs <;> unfold lowerVarDecl <;> infer_instance

instance (s : Srt) (e : IL.Expr) : (passArg s e).Quiet := by
  unfold passArg
  infer_instance

instance (receiver : Option Source.Expr) : (passReceiver v receiver).Quiet := by
  cases receiver <;> unfold passReceiver <;> infer_instance

instance (callee : Method) (receiver : Option Source.Expr) :
    (Body.passThis v callee receiver).Quiet := by
  unfold Body.passThis
  split <;> infer_instance

instance (params : List Source.Binder) (args : List Source.Expr) :
    (passArgs v params args).Quiet := by
  unfold passArgs
  infer_instance

instance (span : Span) (callee : Method) (bindings : List (String × IL.Expr)) :
    (Body.assertModifies v span callee bindings).Quiet := by
  unfold Body.assertModifies
  infer_instance

instance (span : Span) (m : Path) (callee : Method) (bindings : List (String × IL.Expr)) :
    (b.assertDescends v span m callee bindings).Quiet := by
  unfold Body.assertDescends
  split <;> infer_instance

instance (m : Path) (callee : Method) (targets : List Target)
    (bindings : List (String × IL.Expr)) :
    (Body.callProcedure m callee targets bindings).Quiet := by
  unfold Body.callProcedure
  infer_instance

instance (span : Span) (m : Path) (receiver : Option Source.Expr) (args : List Source.Expr)
    (outs : List Lhs) : (b.lowerCall v span m receiver args outs).Quiet := by
  rw [Body.lowerCall_eq]
  infer_instance

/-! ## Forall statements, yields and loops -/

instance (d : Domain) : (havocDomain v d).Quiet := by
  unfold havocDomain
  cases d.range <;> infer_instance

instance (span : Span) (d : Domain) (lhs : Lhs) (e : Source.Expr) :
    (assertInjective v span d lhs e).Quiet := by
  unfold assertInjective
  infer_instance

instance (d : Domain) (lhs : Lhs) (e : Source.Expr) : (assignForall v d lhs e).Quiet := by
  unfold assignForall
  infer_instance

instance (d : Domain) {check effect : BodyM Unit} [check.Quiet] [effect.Quiet] :
    (forallChoice v d check effect).Quiet := by
  unfold forallChoice
  infer_instance

instance (d : Domain) (facts : List IL.Expr) : (assumeForall v d facts).Quiet := by
  unfold assumeForall
  infer_instance

instance (d : Domain) (callee : Method) (receiver : Option Source.Expr)
    (args : List Source.Expr) : (forallEnsures v d callee receiver args).Quiet := by
  unfold forallEnsures
  infer_instance

instance (i : Iterator) (y : Source.Binder) : (extendHistory v i y).Quiet := by
  unfold extendHistory
  infer_instance

instance (span : Span) (values : Option (List Source.Expr)) :
    (b.lowerYield v span values).Quiet := by
  unfold Body.lowerYield
  have choice (s : Progress) : BodyM.Quiet (match b.iterator, s.decl.yieldCount with
      | some i, some count => do
        values.forM (b.assignOuts v)
        i.yields.forM (extendHistory v i)
        BodyM.assign count (.add (.var count) (.nat 1))
        b.establish v "possible violation of yield-ensures condition" i.yieldEnsures
        let prev ← BodyM.havocHeap
        let read ← frameContains v i.reads Heap.obj
        BodyM.assume (Heap.frameCondition prev Prelude.heapVar
          (IL.Expr.disj [.eq Heap.obj v.thisExpr, read]).neg)
        i.yieldRequires.forM fun s => do BodyM.assume (← lowerExpr v s.expr)
      | _, _ => DeclM.reject (.error "a yield statement is allowed only in iterators" span)) := by
    split <;> infer_instance
  exact BodyM.Quiet.bind

namespace LoopFrame

instance (span : Span) (n : Nat) (mods : Option (List Source.Expr)) :
    (enterView v span n mods).Quiet := by
  cases mods <;> unfold enterView <;> infer_instance

instance (span : Span) (spec : LoopSpec) (guard : Option Source.Expr)
    (bodies : List Source.Stmt) : (enter b v span spec guard bodies).Quiet := by
  unfold enter
  infer_instance

instance (l : LoopFrame) : l.snapshot.Quiet := by
  unfold snapshot
  infer_instance

instance (l : LoopFrame) (span : Span) (spec : LoopSpec) (olds : List MeasureValue) :
    (l.assertDescent span spec olds).Quiet := by
  unfold assertDescent
  infer_instance

instance (l : LoopFrame) (guard : Option Source.Expr) : (l.leaveUnless guard).Quiet := by
  cases guard <;> unfold leaveUnless <;> infer_instance

instance (l : LoopFrame) (span : Span) (spec : LoopSpec)
    {iteration : BodyM (List MeasureValue)} [iteration.Quiet] :
    (l.close span spec iteration).Quiet := by
  unfold close
  cases spec.label <;> infer_instance

end LoopFrame

instance (d : Datatype) (dt : Path) (p : Pattern) (s : IL.Expr) :
    (bindPattern d dt p s).Quiet := by
  unfold bindPattern
  infer_instance

end

/-! ## Statements -/

namespace Body

variable {b : Body} {v : View}

theorem lowerStmt?_quiet {o : Option Source.Stmt} (h : ∀ s ∈ o, (b.lowerStmt v s).Quiet) :
    (b.lowerStmt? v o).Quiet := by
  cases o with
  | none => unfold lowerStmt?; infer_instance
  | some s => exact h s rfl

theorem lowerStmts_quiet {ss : List Source.Stmt} (h : ∀ s ∈ ss, (b.lowerStmt v s).Quiet) :
    (b.lowerStmts v ss).Quiet := by
  induction ss with
  | nil => unfold lowerStmts; infer_instance
  | cons s ss ih =>
    have hs := h s (by simp)
    have hrest := ih fun t ht => h t (by simp [ht])
    unfold lowerStmts
    infer_instance

theorem lowerAlternatives_quiet {before : List IL.Stmt}
    {alts : List (Source.Expr × Source.Stmt)} (h : ∀ a ∈ alts, (b.lowerStmt v a.2).Quiet) :
    (b.lowerAlternatives v before alts).Quiet := by
  induction alts with
  | nil => unfold lowerAlternatives; infer_instance
  | cons a alts ih =>
    have harm := h a (by simp)
    have hrest := ih fun a ha => h a (by simp [ha])
    unfold lowerAlternatives
    infer_instance

theorem lowerSteps_quiet {prev : Source.Expr}
    {steps : List ((CalcOp × Source.Expr) × Option Source.Stmt)}
    (h : ∀ a ∈ steps, ∀ s ∈ a.2, (b.lowerStmt v s).Quiet) :
    (b.lowerSteps v prev steps).Quiet := by
  induction steps generalizing prev with
  | nil => unfold lowerSteps; infer_instance
  | cons a steps ih =>
    obtain ⟨⟨op, line⟩, hint⟩ := a
    have hhint := lowerStmt?_quiet (h ((op, line), hint) (by simp))
    have hrest (prev : Source.Expr) : (b.lowerSteps v prev steps).Quiet :=
      ih fun a ha => h a (by simp [ha])
    unfold lowerSteps
    infer_instance

/-- The lowering of a statement is quiet. -/
instance lowerStmt_quiet (b : Body) (v : View) (s : Source.Stmt) : (b.lowerStmt v s).Quiet := by
  induction s using Source.Stmt.recData generalizing v with
  | block span body ih =>
    rw [lowerStmt]
    exact lowerStmts_quiet fun s hs => ih s hs v
  | varDecl | assign | call | assert | assume | yield | leave =>
    rw [lowerStmt]
    infer_instance
  | ifElse span guard thn els iht ihe =>
    have hels : (b.lowerStmt? v els).Quiet := lowerStmt?_quiet fun s hs => ihe s hs v
    cases guard <;> rw [lowerStmt] <;> infer_instance
  | altIf span alts ih =>
    have harms : (b.lowerAlternatives v [] alts).Quiet :=
      lowerAlternatives_quiet fun a ha => ih a ha v
    rw [lowerStmt]
    infer_instance
  | loop span spec guard body ih =>
    have hbody (v : View) : (b.lowerStmt? v body).Quiet := lowerStmt?_quiet fun s hs => ih s hs v
    rw [lowerStmt]
    infer_instance
  | altLoop span spec alts body ih _ =>
    have harms (v : View) (before : List IL.Stmt) : (b.lowerAlternatives v before alts).Quiet :=
      lowerAlternatives_quiet fun a ha => ih a ha v
    cases body <;> rw [lowerStmt] <;> infer_instance
  | cases span e arms ih =>
    have arm (d : Datatype) (dt : Path) (s : IL.Expr) (k : Ctor) :
        BodyM.Quiet (match (b.lowerArms v arms).find? (·.1.ctor == k.name) with
          | some (p, body) => do
            let arm ← BodyM.block do
              bindPattern d dt p s
              body
            pure (some (IL.Expr.app (Naming.isCtor dt k.name) [s]), arm)
          | none => do
            let arm ← pure [IL.Stmt.assert (missingCase span k.name).msg
              (missingCase span k.name).cond]
            pure (some (IL.Expr.app (Naming.isCtor dt k.name) [s]), arm)) := by
      rw [lowerArms_eq, List.find?_map]
      cases hfind : arms.find? ((fun a => a.1.ctor == k.name) ∘ fun a => (a.1, b.lowerStmt v a.2)) with
      | none => exact BodyM.Quiet.bind
      | some arm =>
        have harm := ih arm (List.mem_of_find?_eq_some hfind) v
        exact BodyM.Quiet.bind
    rw [lowerStmt]
    dsimp only
    infer_instance
  | calculation span first steps ih =>
    have hsteps : (b.lowerSteps v first steps).Quiet :=
      lowerSteps_quiet fun a ha s hs => ih a ha s hs v
    rw [lowerStmt]
    infer_instance
  | forallAssign | forallCall =>
    rw [lowerStmt]
    infer_instance
  | forallProof span d ensures body ih =>
    rw [lowerStmt]
    infer_instance
  | ret span values =>
    rw [lowerStmt]
    infer_instance

end Body

end ContractLowering
