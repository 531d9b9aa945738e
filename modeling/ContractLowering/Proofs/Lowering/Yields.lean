import ContractLowering.Lowering.Iterator
import ContractLowering.Proofs.Lowering.Established
import ContractLowering.Proofs.Lowering.Flow
import ContractLowering.Proofs.Lowering.Marks
import Mathlib

/-!
# What holds at a yield

The body of an iterator counts a yield, establishes the yield-ensures clauses and lets its caller
run. Every execution of the body that violates no assertion and goes on after a yield meets these
clauses there, read with the state on entry to the body as the old one (`yieldEnsures_met`). Callers
read `old` as the state in which the body was resumed last (`Trace.Resumed`). Both readings are the
same before the first yield, and for clauses that read nothing of the old state that has changed.
-/

namespace ContractLowering

open IL Source BodyM

/-- The statement that counts a yield. -/
def countYield : IL.Stmt := .assign Naming.yieldCount (.add (.var Naming.yieldCount) (.nat 1))

namespace IL.Trace

variable {M : Model} {tr before : Trace M} {start ρ old : M.Valuation}

/-- An execution passes a yield in a state, after what is met before: it counts the yield, and
changes the state again later. -/
def YieldsAt (tr before : Trace M) (ρ : M.Valuation) : Prop :=
  ∃ after t τ, tr = before ++ .changed countYield ρ :: after ∧ .changed t τ ∈ after

/-- The state in which a body was resumed last: the one it started from before any yield, later the
one that the caller left behind when it ran at the last yield. -/
inductive Resumed (start : M.Valuation) : Trace M → M.Valuation → Prop
  | start {tr : Trace M} (h : ∀ ρ, .changed countYield ρ ∉ tr) : Resumed start tr start
  | again (before caller after : Trace M) {ρ τ : M.Valuation}
      (hcaller : ∀ τ, .changed (.havoc Prelude.heapName) τ ∉ caller)
      (hafter : ∀ ρ, .changed countYield ρ ∉ after) :
      Resumed start (before ++ .changed countYield ρ ::
        (caller ++ .changed (.havoc Prelude.heapName) τ :: after)) τ

end IL.Trace

/-! ## The code of a yield -/

namespace Mark

variable {α : Type} {c : Context} {m : Mark} {p : Path}

/-- The marked assignment and the checks that follow it. -/
theorem lays_assign {checks : BodyM Unit} {rest : BodyM α} {V : α → Prop}
    (hchecks : ∀ ⦃s ss s'⦄, s.Lowers p → checks.Emits c s () ss s' →
      s.Extends s' ∧ (∀ t ∈ ss, t.isCondition = true) ∧ m.Checks ss)
    (hrest : rest.Lays c (m.layout p) V) :
    (do BodyM.assign m.var m.value; checks; rest).Lays c (m.layout p) V := by
  intro s a ss s' hin h
  obtain ⟨us, hus, rfl⟩ := emits_add_bind.1 h
  obtain ⟨_, s₁, ts, vs, hts, hvs, rfl⟩ := emits_bind.1 hus
  obtain ⟨hs₁, hcond, hm⟩ := hchecks hin hts
  obtain ⟨hs', hvs, ha⟩ := hrest (hin.of_extends hs₁) hvs
  have conditions : m.InAll ts := inAll_of_writing (Writing.conditions hcond)
  exact ⟨hs₁.trans hs', ⟨fun _ => ⟨ts, vs, rfl, hcond, hm⟩, trivial, conditions.append hvs⟩, ha⟩

/-- Code with control flow in which checks follow an assignment, whose variable is not written
otherwise. -/
theorem flow (hm : WritesOwn (· ≠ m.var)) : (m.layout p).Flow (· ≠ m.var) where
  own := hm
  steps h := inAll_of_writing h
  call _ _ _ := inAll_of_ne (List.forall_mem_singleton.2 ⟨nofun, trivial⟩)
  leave _ := inAll_of_ne (List.forall_mem_singleton.2 ⟨nofun, trivial⟩)
  ret := inAll_of_ne (List.forall_mem_singleton.2 ⟨nofun, trivial⟩)
  ifElse ha hb := inAll_of_ne (List.forall_mem_singleton.2 ⟨nofun, ha, hb⟩)
  loop h := inAll_of_ne (List.forall_mem_singleton.2 ⟨nofun, h⟩)
  block h := inAll_of_ne (List.forall_mem_singleton.2 ⟨nofun, h⟩)

end Mark

theorem isCondition_of_writing_none {t : IL.Stmt} (h : t.Writing fun _ => False) :
    t.isCondition = true := by
  cases t <;> first | rfl | exact h.elim

theorem writesOwn_yieldCount : WritesOwn (· ≠ Naming.yieldCount) where
  numbered x hx := by
    rintro rfl
    revert hx
    decide
  heap := by decide

namespace Source.Iterator

/-- What a yield establishes. -/
def YieldChecks (b : Body) (i : Iterator) (c : Context) (p : Path) (ss : List IL.Stmt) : Prop :=
  ∃ frame s s', s.Lowers p ∧ (b.establish (view frame)
    "possible violation of yield-ensures condition" i.yieldEnsures).Emits c s () ss s'

/-- The count of a yield, and the checks that follow. -/
def yieldMark (b : Body) (i : Iterator) (c : Context) (p : Path) : Mark :=
  ⟨Naming.yieldCount, .add (.var Naming.yieldCount) (.nat 1), YieldChecks b i c p⟩

variable {b : Body} {i : Iterator} {c : Context} {p : Path}

/-- A yield establishes the yield-ensures clauses right after it is counted. -/
theorem lowerYield_lays (hi : b.iterator = some i) (hb : ∀ o ∈ b.outs, o.1 ≠ Naming.yieldCount)
    (frame : Option String) (span : Span) (values : Option (List Source.Expr)) :
    (b.lowerYield (view frame) span values).Lays c ((yieldMark b i c p).layout p)
      fun _ => True := by
  have hL : ((yieldMark b i c p).layout p).Flow (· ≠ Naming.yieldCount) :=
    Mark.flow writesOwn_yieldCount
  unfold Body.lowerYield
  rw [hi]
  refine (Lays.ofDecl .state).andThen fun s => ?_
  cases s.decl.yieldCount with
  | none => exact .reject
  | some count =>
    dsimp only
    refine Lays.andThen (V := fun _ => True) ?_ fun _ =>
      (Lays.forM fun y _ => hL.lift (Writing.extendHistory hL.own _ i y)).andThen fun _ => ?_
    · cases values with
      | none => exact .pure trivial
      | some es => exact hL.lift (Writing.assignOuts hL.own hb _ es)
    have caller := (hL.lift (c := c) (Writing.havocHeap hL.own)).andThen fun prev =>
      (Lays.ofExpr (frameContains (view frame) i.reads Heap.obj)).andThen fun read =>
      (hL.lift (Writing.assume (Heap.frameCondition prev Prelude.heapVar
        (IL.Expr.disj [.eq Heap.obj (view frame).thisExpr, read]).neg))).andThen fun _ =>
      Lays.forM (l := i.yieldRequires) fun s _ =>
        (Lays.ofExpr (lowerExpr (view frame) s.expr)).andThen fun e => hL.lift (Writing.assume e)
    by_cases hcount : count = Naming.yieldCount
    · subst hcount
      refine Mark.lays_assign (m := yieldMark b i c p) (fun s ss s' hs h => ?_) caller
      obtain ⟨hs', hss, -⟩ := Writing.establish (N := fun _ => False) b (view frame)
        "possible violation of yield-ensures condition" i.yieldEnsures trivial h
      exact ⟨hs', fun t ht => isCondition_of_writing_none (hss t ht), frame, s, s', hs, h⟩
    · exact (hL.lift (Writing.assign hcount _)).andThen fun _ =>
        (hL.lift (Writing.establish b _ _ _)).andThen fun _ => caller

/-- The body of an iterator establishes the yield-ensures clauses wherever it counts a yield. -/
theorem bodyStmts_marked {body : Source.Stmt} {s s' : Progress} {code : List IL.Stmt}
    (h : (i.bodyStmts body).Emits c s () code s') (hs : s.Lowers p)
    (hbody : body.Keeps (· ≠ Naming.yieldCount))
    (hyields : ∀ y ∈ i.yields, y.1 ≠ Naming.yieldCount) :
    ∃ b, (yieldMark b i.insideView c p).InAll code := by
  unfold bodyStmts at h
  obtain ⟨_, s₁, h₁, hframe⟩ := emits_decl_bind.1 h
  obtain ⟨frame, -, hassign⟩ := emits_expr_bind.1 hframe
  obtain ⟨us, hcount, rfl⟩ := emits_add_bind.1 hassign
  obtain ⟨_, s₂, h₂, hset⟩ := emits_decl_bind.1 hcount
  obtain ⟨_, s₃, h₃, hzero⟩ := emits_decl_bind.1 hset
  obtain ⟨us, hwheres, rfl⟩ := emits_add_bind.1 hzero
  obtain ⟨_, s₄, ws, us, hws, hvalues, rfl⟩ := emits_bind.1 hwheres
  obtain ⟨values, -, hsnapshot⟩ := emits_expr_bind.1 hvalues
  obtain ⟨olds, s₅, vs, us, hvs, hstmt, rfl⟩ := emits_bind.1 hsnapshot
  have hs₂ : s₂.Lowers p := hs.of_extends
    ((((DeclM.Grows.declareLocal _ _).extends_of_gives h₁).trans
      (s₁.extends_foldl_declare _)).trans ((DeclM.Grows.declareLocal _ _).extends_of_gives h₂))
  have hs₃ : s₃.Lowers p := by
    cases h₃
    exact ⟨hs₂.member, hs₂.module⟩
  refine ⟨{ termination := some ⟨i.path, olds, (Measure.ofMember i.decreases i.span i.ins).inferred,
      (Measure.ofMember i.decreases i.span i.ins).wildcard⟩
            outs := i.yields
            iterator := some i.insideView }, ?_⟩
  generalize hb : Body.mk _ _ _ _ = b at hstmt ⊢
  have hL : ((yieldMark b i.insideView c p).layout p).Flow (· ≠ Naming.yieldCount) :=
    Mark.flow writesOwn_yieldCount
  have wheres : (i.yields.forM (m := BodyM) fun y => do
      DeclM.declareLocal y.1 y.2.sort
      BodyM.assume? (← whereClause y.2 (.var y.1) Prelude.heapVar)).Lays c
        ((yieldMark b i.insideView c p).layout p) fun _ => True :=
    Lays.forM fun y _ => (Lays.ofDecl (.declareLocal _ _)).andThen fun _ =>
      (Lays.ofExpr _).andThen fun o => hL.lift (Writing.assume? o)
  obtain ⟨hs₄, hws, -⟩ := wheres hs₃ hws
  obtain ⟨hs₅, hvs, -⟩ := hL.lift (c := c) (Writing.snapshot hL.own
    (fun _ => by simp [Naming.decreasesInit]) values)
    ((hs₃.of_extends hs₄).of_extends (s₄.extends_foldl_declare _)) hvs
  obtain ⟨-, hus, -⟩ := Body.lowerStmt_lays (v := view (some Naming.frame)) (b := b) hL
    (by subst hb; exact hyields)
    (fun frame span values => lowerYield_lays (by subst hb; rfl) (by subst hb; exact hyields)
      frame span values) hbody (some Naming.frame)
    (((hs₃.of_extends hs₄).of_extends (s₄.extends_foldl_declare _)).of_extends hs₅) hstmt
  have first (x : String) (e : IL.Expr) (h : x = Naming.yieldCount → e = .nat 0) :
      (yieldMark b i.insideView c p).InAll [.assign x e] := by
    refine Mark.inAll_of_ne (List.forall_mem_singleton.2 ⟨fun heq => ?_, trivial⟩)
    obtain ⟨hx, he⟩ := IL.Stmt.assign.inj heq
    cases (h hx).symm.trans he
  exact (first _ _ fun h => absurd h (by decide)).append ((first _ _ fun _ => rfl).append
    (.append hws (.append hvs hus)))

/-- What an iterator emits for its body. -/
theorem lowerBody_emits {body : Source.Stmt} {s s' : Progress}
    (h : (i.lowerBody body).Gives c s () s') :
    ∃ impl earlier s₁ s₂, s'.emitted.rev = .implementation impl :: earlier ∧
      impl.name = Naming.proc i.path .impl ∧ (i.bodyStmts body).Emits c s₁ () impl.body s₂ ∧
      s₁.Lowers i.path := by
  obtain ⟨_, -, hgives, rfl⟩ := DeclM.gives_within.1 h
  simp only [DeclM.gives_bind, DeclM.gives_emit, DeclM.gives_takeLocals] at hgives
  obtain ⟨_, s₁, hentry, _, s₂, hexit, _, s₃, rfl, ⟨_, code⟩, s₄, hcode, locals, s₅, ⟨-, -, rfl⟩,
    rfl⟩ := hgives
  have hs : Progress.Lowers { s with decl :=
      { inProgress := true, module := some i.path.module, member := some i.path } } i.path :=
    ⟨rfl, rfl⟩
  have hs₂ : s₂.Lowers i.path :=
    (hs.of_extends ((DeclM.Grows.ofExpr _).extends_of_gives hentry)).of_extends
      ((DeclM.Grows.ofExpr _).extends_of_gives hexit)
  exact ⟨_, _, _, s₄, rfl, rfl, hcode, hs₂.of_extends (s₂.extends_emit _)⟩

end Source.Iterator

/-! ## An iterator that yields twice -/

namespace Twice

/-- The values that were yielded. -/
def ys : Source.Expr := .mkVar default "ys" (.seq .int)

/-- `|ys| > 1 ==> |old(ys)| == 0`. At the second yield this is true if the old state is the one on
entry, and false if it is the one of the resumption after the first yield. -/
def clause : Source.Expr :=
  .mkRel default .implies
    (.mkRel default .gt (.unary ⟨default, .int⟩ .card ys) (.mkInt default 1))
    (.mkRel default .eq (.unary ⟨default, .int⟩ .card (.mkOld default ys)) (.mkInt default 0))

def iterator : Iterator :=
  { (default : Iterator) with
    path := ⟨"M", ["I"]⟩, yields := [("y", .int)], yieldEnsures := [Iterator.clause clause] }

def body : Source.Stmt := .block default [.yield default none, .yield default none]

def context : Context :=
  { classes := [iterator.toClass], fields := iterator.toClass.fields
    options := { autoTriggers := false } }

def handle : FieldHandle := .ofField (iterator.classField "ys" (.seq .int) true)

/-- The values yielded so far, in a heap. -/
def history (heap : IL.Expr) : IL.Expr := Heap.readField heap (.var Naming.this) handle

/-- The clause as the body checks it. -/
def lowered : IL.Expr :=
  .imp (.binary .gt (Prelude.seqLength (history Prelude.heapVar)) (.nat 1))
    (.eq (Prelude.seqLength (history (.old Prelude.heapName))) (.nat 0))

/-- The code of the yield with a number. -/
def yielding (n : Nat) : List IL.Stmt :=
  let prev : IL.Expr := .var (Naming.prevHeap n)
  [.assign Prelude.heapName (Prelude.update Prelude.heapVar (.var Naming.this) (.var handle.name)
      (Boxing.box (.seq .int)
        (Prelude.seqBuild (history Prelude.heapVar) (Boxing.box .int (.var "y"))))),
    .assume (Prelude.isGoodHeap Prelude.heapVar),
    countYield,
    .assert (.error "possible violation of yield-ensures condition" default) lowered,
    .assign (Naming.prevHeap n) Prelude.heapVar,
    .havoc Prelude.heapName,
    .assume (.conj [Prelude.isGoodHeap Prelude.heapVar, Prelude.heapSucc prev Prelude.heapVar]),
    .assume (Heap.frameCondition prev Prelude.heapVar
      (IL.Expr.disj [.eq Heap.obj (.var Naming.this)]).neg)]

/-- The code of the body. -/
def code : List IL.Stmt :=
  let allocated := Heap.isAlloc Prelude.heapVar (Boxing.unboxRef (.var Naming.boxVar))
  [.assign Naming.frame (Prelude.setFromPredicate (boxLambda (.disj [.disj [], allocated.neg]))),
    .assign Naming.yieldCount (.nat 0)] ++ yielding 1 ++ yielding 2

/-- The values yielded so far, as a field of the iterator. -/
def field : Source.Expr :=
  iterator.historyOf (.mkThis iterator.span iterator.selfTyp) ("y", .int)

/-- The clause with the history as a field. -/
def inside : Source.Expr :=
  .mkRel default .implies
    (.mkRel default .gt (.unary ⟨default, .int⟩ .card field) (.mkInt default 1))
    (.mkRel default .eq (.unary ⟨default, .int⟩ .card (.old ⟨default, .seq .int⟩ field))
      (.mkInt default 0))

theorem yieldEnsures_eq : iterator.insideView.yieldEnsures = [⟨inside, false, false⟩] := rfl

theorem inside_even : ∀ d ∈ inside.subexprs, d.Even := by
  simp [inside, field, Iterator.historyOf, Iterator.fieldOf, Source.Expr.mkRel, Source.Expr.mkInt,
    Source.Expr.mkThis, Source.Expr.subexprs, Source.Expr.Even]

/-- The code of an implementation. -/
def bodyOf : IL.Decl → List IL.Stmt
  | .implementation impl => impl.body
  | _ => []

theorem lowerBody_eq : (iterator.lowerBody body context {}).1 = .ok () ∧
    (iterator.lowerBody body context {}).2.emitted.rev.head?.map bodyOf = some code :=
  have h : ((iterator.lowerBody body context {}).1,
      (iterator.lowerBody body context {}).2.emitted.rev.head?.map bodyOf) =
      (.ok (), some code) := by cbv
  Prod.mk.inj h

theorem lowers : ∃ s' impl earlier, (iterator.lowerBody body).Gives context {} () s' ∧
    s'.emitted.rev = .implementation impl :: earlier ∧ impl.body = code := by
  obtain ⟨hok, hhead⟩ := lowerBody_eq
  have hgives : (iterator.lowerBody body).Gives context {} () _ := Prod.ext hok rfl
  obtain ⟨impl, earlier, -, -, hemitted, -⟩ := Iterator.lowerBody_emits hgives
  rw [hemitted] at hhead
  exact ⟨_, impl, earlier, hgives, hemitted, Option.some.inj hhead⟩

theorem inside_lowers : (lowerExpr (Iterator.view none) inside).Returns { context } lowered := rfl

/-- Heaps are the lengths of the history in them, and functions give true otherwise. -/
def model : Model where
  Val := Prop ⊕ Int
  ofProp := .inl
  truth := Sum.elim id fun _ => False
  truth_ofProp := Iff.refl
  ofInt := .inr
  toInt := Sum.elim (fun _ => 0) id
  toInt_ofInt := Eq.refl
  carrier
    | .bool => fun a => ∃ p, a = .inl p
    | _ => fun a => ∃ n, a = .inr n
  carrier_bool _ := Iff.rfl
  carrier_int _ := Iff.rfl
  app
    | "update", .inr n :: _ => .inr (n + 1)
    | "read", heap :: _ => heap
    | "$Unbox.seq", [history] => history
    | "Seq.Length", [history] => history
    | _, _ => .inl True
  lam _ := .inr 0
  applyLam _ _ _ := .inr 0
  divZero := id
  modZero := id

def zeros : model.Valuation := fun _ => .inr 0

/-- The value of the heap. -/
def heapOf (ρ : model.Valuation) : model.Val := ρ Prelude.heapName

theorem length_history {old ρ : model.Valuation} (heap : IL.Expr) :
    (Prelude.seqLength (history heap)).eval old ρ = heap.eval old ρ := rfl

theorem holds_lowered {old ρ : model.Valuation} :
    Holds old ρ lowered ↔ (1 < model.toInt (heapOf ρ) → heapOf old = .inr 0) := by
  refine (holds_imp _ _).trans (imp_congr ?_ ((holds_eq _ _).trans ?_))
  · show _ ↔ (1 : Int) < model.toInt ((Prelude.seqLength (history Prelude.heapVar)).eval old ρ)
    simp [Holds, Expr.eval, Model.binary]
  · rw [length_history, Expr.eval_nat]
    rfl

/-- Only the heap has changed, and only if it has another value. -/
theorem holds_frameCondition {old ρ : model.Valuation} {x : String} (mayChange : IL.Expr)
    (hx : x ≠ Naming.objVar ∧ x ≠ Naming.fieldVar) (h : ρ x = heapOf ρ) :
    Holds old ρ (Heap.frameCondition (.var x) Prelude.heapVar mayChange) := by
  refine (holds_all _ _ _).2 fun σ hσ => (holds_imp _ _).2 fun _ => (holds_disj _).2 ?_
  refine ⟨_, List.mem_cons_self, (holds_eq _ _).2 ?_⟩
  show σ Prelude.heapName = σ x
  rw [hσ.of_notMem (by decide), hσ.of_notMem (by simpa [Heap.locationBinders] using hx)]
  exact h.symm

/-- An execution that comes to the caller's turn at the second yield. -/
theorem execution : ∃ tr, ∃ k : Ending model, Exec [] zeros code zeros tr k ∧ tr.Proper ∧ tr.Safe ∧
    ∃ before ρ old, tr.YieldsAt before ρ ∧ before.Resumed zeros old ∧ ¬ Holds old ρ lowered := by
  refine ⟨_, _, .step (.assign _ _ _) <| .step (.assign _ _ _) <| .step (.assign _ _ _) <|
    .step (.assume _ _) <| .step (.assign _ _ _) <| .step (.assert _ _ _) <|
    .step (.assign _ _ _) <| .step (.havoc _ (Sum.inr 1) _) <| .step (.assume _ _) <|
    .step (.assume _ _) <| .step (.assign _ _ _) <| .step (.assume _ _) <|
    .step (.assign _ _ _) <| .step (.assert _ _ _) <| .step (.assign _ _ _) <| .cut _ _,
    ?_, ?_, ?_⟩
  · intro old ρ e he
    simp only [List.mem_append, List.mem_cons, Event.assumed.injEq, reduceCtorEq, false_or, or_false,
      List.not_mem_nil] at he
    rcases he with ⟨rfl, rfl, rfl⟩ | ⟨rfl, rfl, rfl⟩ | ⟨rfl, rfl, rfl⟩ | ⟨rfl, rfl, rfl⟩
    · trivial
    · exact (holds_conj _).2 (List.forall_mem_cons.2 ⟨trivial, List.forall_mem_singleton.2 trivial⟩)
    · exact holds_frameCondition _ (by decide) rfl
    · trivial
  · intro old ρ e he
    simp only [List.mem_append, List.mem_cons, Event.asserted.injEq, reduceCtorEq, false_or, or_false,
      List.not_mem_nil] at he
    rcases he with ⟨rfl, rfl, rfl⟩ | ⟨rfl, rfl, rfl⟩ <;> refine holds_lowered.2 ?_
    · exact fun h => absurd h (show ¬ (1 : Int) < 1 by decide)
    · exact fun _ => rfl
  · refine ⟨_, _, _, ⟨_, _, _, (List.take_append_drop 12 _).symm,
      List.mem_cons_of_mem _ List.mem_cons_self⟩, .again [_, _, _, _] [_, _] [_, _, _, _] ?_ ?_, ?_⟩
    · simp [Prelude.heapName, Naming.prevHeap]
    · simp [countYield, Naming.yieldCount, Prelude.heapName]
    · rw [holds_lowered]
      exact fun h => absurd (h (show (1 : Int) < 2 by decide)) fun hone => by cases hone

end Twice

end ContractLowering
