import ContractLowering.Proofs.IL.LoopCut
import ContractLowering.Proofs.Lowering.Evaluation
import ContractLowering.Proofs.Lowering.Extends
import ContractLowering.Proofs.Lowering.Split

/-!
# Loop invariants hold and are defined

A loop has a witness, an arbitrary boolean. Where it is true, the invariants are proved. Where it is
false, an iteration only checks the contract to be defined and goes no further. So no execution does
both, but the cut of the loop (`Proofs.IL.LoopCut`) considers every state with either value of the
witness.

`loop_invariants_hold` combines both choices. Whenever an iteration really starts, by induction on
the iterations the invariants hold, and so the cut considers this state with the witness false as
well, where the check of the invariants passes. This needs all free clauses, not only those about
the heap and the types of variables: free invariants are assumed, and so is that the calls in
invariants are permitted (`loop_invariants_fail_of_assumed`).
-/

namespace ContractLowering

open IL Source

/-! ## Steps after which expressions are lowered as before -/

section

variable {α β : Type} {c : Context} {s s' : Progress}

theorem Progress.later_declareLocal (c : Context) (s : Progress) (x : String) (srt : Srt) :
    s.Later c { s with decl := s.decl.declareLocal x srt } := by
  unfold DeclState.declareLocal
  split
  · exact ⟨⟨rfl, rfl, rfl, fun _ _ => rfl⟩, Nat.le_refl _⟩
  · split
    · exact .refl c s
    · exact ⟨⟨rfl, rfl, rfl, fun _ _ => rfl⟩, Nat.le_refl _⟩

/-- A computation after which expressions are lowered as before. -/
def DeclM.Lasts (x : DeclM α) : Prop := ∀ ⦃c s a s'⦄, x.Gives c s a s' → s.Later c s'

namespace DeclM.Lasts

theorem pure (a : α) : (Pure.pure a : DeclM α).Lasts := by
  intro c s b s' h
  obtain ⟨-, rfl⟩ := gives_pure.1 h
  exact .refl _ _

theorem bind {x : DeclM α} {f : α → DeclM β} (hx : x.Lasts) (hf : ∀ a, (f a).Lasts) :
    (x >>= f).Lasts := by
  intro c s b s' h
  obtain ⟨a, s₁, ha, hb⟩ := gives_bind.1 h
  exact (hx ha).trans (hf a hb)

theorem ofExpr {x : ExprM α} (hx : x.Stable) : (DeclM.ofExpr x).Lasts :=
  fun _ _ _ _ h => (Runs.ofExpr h hx).2

theorem freshId : DeclM.freshId.Lasts := fun _ _ _ _ h => (Runs.freshId h).2

theorem state : DeclM.state.Lasts := by
  intro c s t s' h
  obtain ⟨-, rfl⟩ := gives_state.1 h
  exact .refl _ _

theorem declareLocal (x : String) (srt : Srt) : (DeclM.declareLocal x srt).Lasts := by
  intro c s u s' h
  cases h
  exact s.later_declareLocal c x srt

theorem mapM {f : α → DeclM β} {l : List α} (hf : ∀ a, (f a).Lasts) : (l.mapM f).Lasts := by
  induction l with
  | nil => exact pure []
  | cons a l ih =>
    rw [List.mapM_cons]
    exact bind (hf a) fun _ => bind ih fun _ => pure _

end DeclM.Lasts

/-- A computation after which expressions are lowered as before. -/
def BodyM.Lasts (x : BodyM α) : Prop := ∀ ⦃c s a ss s'⦄, x.Emits c s a ss s' → s.Later c s'

namespace BodyM.Lasts

theorem pure (a : α) : (Pure.pure a : BodyM α).Lasts := by
  intro c s b ss s' h
  obtain ⟨-, -, rfl⟩ := emits_pure.1 h
  exact .refl _ _

theorem bind {x : BodyM α} {f : α → BodyM β} (hx : x.Lasts) (hf : ∀ a, (f a).Lasts) :
    (x >>= f).Lasts := by
  intro c s b ss s' h
  obtain ⟨a, s₁, ss₁, ss₂, ha, hb, -⟩ := emits_bind.1 h
  exact (hx ha).trans (hf a hb)

theorem ofDecl {x : DeclM α} (hx : x.Lasts) : (liftM x : BodyM α).Lasts :=
  fun _ _ _ _ _ h => hx (emits_ofDecl.1 h).1

theorem ofExpr {x : ExprM α} (hx : x.Stable) : (liftM x : BodyM α).Lasts :=
  ofDecl (.ofExpr hx)

theorem add (ts : List IL.Stmt) : (BodyM.add ts).Lasts := by
  intro c s u ss s' h
  obtain ⟨-, rfl⟩ := emits_add.1 h
  exact .refl _ _

theorem mapM {f : α → BodyM β} {l : List α} (hf : ∀ a, (f a).Lasts) : (l.mapM f).Lasts := by
  induction l with
  | nil => exact pure []
  | cons a l ih =>
    rw [List.mapM_cons]
    exact bind (hf a) fun _ => bind ih fun _ => pure _

theorem forM {f : α → BodyM Unit} {l : List α} (hf : ∀ a, (f a).Lasts) : (l.forM f).Lasts := by
  induction l with
  | nil => exact pure ()
  | cons a l ih => exact bind (hf a) fun _ => ih

theorem storeIn (x : String) (srt : Srt) (value : IL.Expr) : (BodyM.storeIn x srt value).Lasts :=
  bind (ofDecl (.declareLocal x srt)) fun _ => bind (add _) fun _ => pure _

theorem define (v : View) (e : Source.Expr) : (BodyM.define v e).Lasts :=
  bind (ofExpr (definedness_stable v {} e)) fun _ => add _

theorem snapshot (name : Nat → String) (vs : List MeasureValue) : (BodyM.snapshot name vs).Lasts :=
  mapM fun _ => bind (storeIn _ _ _) fun _ => pure _

end BodyM.Lasts

end

namespace LoopFrame

theorem enterView_lasts (v : View) (span : Span) (n : Nat) (mods : Option (List Source.Expr)) :
    (enterView v span n mods).Lasts := by
  cases mods with
  | none => exact .pure _
  | some mods =>
    exact .bind (.forM (.define v)) fun _ =>
      .bind (.ofExpr (frameContains_has (T := .stable) v mods _)) fun _ => .bind (.add _) fun _ =>
      .bind (.ofDecl (.declareLocal _ _)) fun _ =>
      .bind (.ofExpr (frameSet_has (T := .stable) v mods _)) fun _ => .bind (.add _) fun _ =>
      .pure _

theorem kept_lasts (v : View) (preHeap : IL.Expr) (assigned : List Source.Binder) :
    (kept v preHeap assigned).Lasts :=
  .bind (.mapM fun _ => .ofExpr (whereClause_has (T := .stable) _ _ _)) fun _ => .pure _

end LoopFrame

/-! ## The contract of a loop -/

/-- The view of what is inside a loop: a loop with a modifies clause has a frame of its own. -/
def View.inLoop (v : View) (n : Nat) (mods : Option (List Source.Expr)) : View :=
  if mods.isSome then { v with frame := some (Naming.loopFrame n) } else v

/-- The clauses of an invariant, and the statements that check it to be defined. -/
def IsInvariant (env : Env) (v : View) (witness : IL.Expr) (inv : Spec)
    (p : List Clause × List IL.Stmt) : Prop :=
  ∃ x calls checks k, (lowerExpr v inv.expr).Returns env x ∧
    (canCall v inv.expr).Returns env calls ∧ (definedness v {} inv.expr).Returns env checks ∧
    k.expr = .imp witness x ∧
    p = ([k, .assumed (.imp witness calls)], checks ++ [.assume x])

namespace LoopFrame

variable {b : Body} {v : View} {span : Span} {spec : LoopSpec} {guard : Option Source.Expr}
  {bodies : List Source.Stmt} {c : Context} {s₀ s s' : Progress} {l : LoopFrame}
  {ss : List IL.Stmt} {witness : IL.Expr}

theorem enterView_eq {n : Nat} {mods : Option (List Source.Expr)} {v' : View}
    (h : (enterView v span n mods).Emits c s v' ss s') : v' = v.inLoop n mods := by
  cases mods with
  | none => exact (BodyM.emits_pure.1 h).1
  | some mods =>
    unfold enterView at h
    obtain ⟨_, _, _, _, -, h, -⟩ := BodyM.emits_bind.1 h
    obtain ⟨_, -, h⟩ := BodyM.emits_expr_bind.1 h
    obtain ⟨_, _, _, _, -, h, -⟩ := BodyM.emits_bind.1 h
    obtain ⟨_, _, -, h⟩ := BodyM.emits_decl_bind.1 h
    obtain ⟨_, -, h⟩ := BodyM.emits_expr_bind.1 h
    obtain ⟨_, _, _, _, -, h, -⟩ := BodyM.emits_bind.1 h
    exact (BodyM.emits_pure.1 h).1

theorem invariant_gives {inv : Spec} {p : List Clause × List IL.Stmt} (hs : s₀.Later c s)
    (h : (invariant b v witness inv).Gives c s p s') :
    IsInvariant (s₀.env c) v witness inv p ∧ s₀.Later c s' := by
  simp only [invariant, DeclM.gives_bind, DeclM.gives_context, DeclM.gives_pure] at h
  obtain ⟨_, _, ⟨rfl, rfl⟩, x, s₁, hx, calls, s₂, hcalls, checks, s₃, hchecks, rfl, rfl⟩ := h
  obtain ⟨hx, h₁⟩ := DeclM.Runs.lower hs hx (lowerExpr_stable inv.expr v)
  obtain ⟨hcalls, h₂⟩ := DeclM.Runs.lower h₁ hcalls (canCall_stable v inv.expr)
  obtain ⟨hchecks, h₃⟩ := DeclM.Runs.lower h₂ hchecks (definedness_stable v {} inv.expr)
  refine ⟨⟨x, calls, checks, _, hx, hcalls, hchecks, ?_, rfl⟩, h₃⟩
  split <;> rfl

theorem invariants_emits {invs : List Spec} {ps : List (List Clause × List IL.Stmt)}
    (hs : s₀.Later c s)
    (h : (invs.mapM fun inv => (liftM (invariant b v witness inv) : BodyM _)).Emits c s ps ss s') :
    List.Forall₂ (IsInvariant (s₀.env c) v witness) invs ps ∧ ss = [] ∧ s₀.Later c s' := by
  induction invs generalizing s ps ss with
  | nil =>
    obtain ⟨rfl, rfl, rfl⟩ := BodyM.emits_pure.1 h
    exact ⟨.nil, rfl, hs⟩
  | cons inv invs ih =>
    obtain ⟨p, s₁, ss₁, ps', ss₂, hp, hps, rfl, rfl⟩ := BodyM.emits_mapM_cons.1 h
    obtain ⟨hgives, rfl⟩ := BodyM.emits_ofDecl.1 hp
    obtain ⟨hinv, h₁⟩ := invariant_gives hs hgives
    obtain ⟨hinvs, rfl, h₂⟩ := ih h₁ hps
    exact ⟨.cons hinv hinvs, rfl, h₂⟩

/-- What is known of a loop that was entered: its clauses are those of its invariants and others,
and its iterations start by checking the invariants to be defined where the witness is false. -/
structure Entered (c : Context) (s : Progress) (v : View) (spec : LoopSpec) (l : LoopFrame)
    (s' : Progress) : Prop where
  number : l.number = s.decl.counter + 1
  view : l.view = v.inLoop l.number spec.modifies
  later : s.Later c s'
  parts : ∃ ps others measured,
    List.Forall₂ (IsInvariant (s.env c) l.view (.var (Naming.loopWitness l.number)))
      spec.invariants ps ∧
    l.invariants = ps.flatMap (·.1) ++ others ∧
    l.wellFormed = [.ifElse (some (IL.Expr.var (Naming.loopWitness l.number)).neg)
      (ps.flatMap (·.2) ++ measured ++ [.assume .ff]) []]

theorem emits_enter (h : (enter b v span spec guard bodies).Emits c s l ss s') :
    Entered c s v spec l s' ∧
      ∃ before, ss = before ++ [.havoc (Naming.loopWitness (s.decl.counter + 1))] := by
  unfold enter at h
  obtain ⟨n, s₁, hn, h⟩ := BodyM.emits_decl_bind.1 h
  obtain ⟨preHeap, s₂, ss₂, _, hpre, h, hss₂⟩ := BodyM.emits_bind.1 h
  obtain ⟨view, s₃, ss₃, _, hview, h, hss₃⟩ := BodyM.emits_bind.1 h
  dsimp only at h
  obtain ⟨_, s₄, hstate, h⟩ := BodyM.emits_decl_bind.1 h
  obtain ⟨current, s₅, ss₅, _, hcurrent, h, hss₅⟩ := BodyM.emits_bind.1 h
  obtain ⟨inits, s₆, ss₆, _, hinits, h, hss₆⟩ := BodyM.emits_bind.1 h
  obtain ⟨_, s₇, ss₇, _, hlocal, h, hss₇⟩ := BodyM.emits_bind.1 h
  obtain ⟨_, s₈, ss₈, _, hhavoc, h, hss₈⟩ := BodyM.emits_bind.1 h
  obtain ⟨ps, s₉, ss₉, _, hps, h, hss₉⟩ := BodyM.emits_bind.1 h
  obtain ⟨keeps, t₁, hkeeps, h⟩ := BodyM.emits_decl_bind.1 h
  obtain ⟨measured, t₂, us, _, hmeasured, h, hus⟩ := BodyM.emits_bind.1 h
  obtain ⟨rfl, rfl, rfl⟩ := BodyM.emits_pure.1 h
  obtain rfl : n = s.decl.counter + 1 := by cases hn; rfl
  obtain rfl := enterView_eq hview
  obtain ⟨rfl, rfl⟩ := BodyM.emits_add.1 hhavoc
  obtain ⟨-, rfl⟩ := BodyM.emits_ofDecl.1 hlocal
  have h₂ : s.Later c s₂ := (DeclM.Lasts.freshId hn).trans (BodyM.Lasts.storeIn _ _ _ hpre)
  have h₄ : s.Later c s₄ :=
    (h₂.trans (enterView_lasts _ _ _ _ hview)).trans (DeclM.Lasts.state hstate)
  have h₅ : s.Later c s₅ :=
    h₄.trans (BodyM.Lasts.ofExpr (Termination.values_has (T := .stable) _ _) hcurrent)
  have h₈ : s.Later c s₈ := (h₅.trans (BodyM.Lasts.snapshot _ _ hinits)).trans
    (BodyM.Lasts.ofDecl (.declareLocal _ _) hlocal)
  obtain ⟨hinvs, rfl, h₉⟩ := invariants_emits h₈ hps
  obtain ⟨-, rfl⟩ := BodyM.emits_ofDecl.1 hmeasured
  have h' : s.Later c s' := (h₉.trans (kept_lasts _ _ _ hkeeps)).trans
    (BodyM.Lasts.ofExpr (definednessOfAll_has (T := .stable) _ _ _) hmeasured)
  refine ⟨⟨rfl, rfl, h', ps, _, measured, hinvs, List.append_assoc _ _ _, rfl⟩,
    ss₂ ++ ss₃ ++ ss₅ ++ ss₆, ?_⟩
  simp [hss₂, hss₃, hss₅, hss₆, hss₇, hss₈, hss₉, hus]

end LoopFrame

/-! ## The code of a loop -/

/-- The code of a loop: what is executed before it, its clauses, and what is executed in an
iteration. -/
structure LoopCode where
  label : Option String
  before : List IL.Stmt
  clauses : List Clause
  body : List IL.Stmt

namespace LoopCode

/-- The loop itself. -/
def loop (l : LoopCode) : IL.Stmt := .loop none l.clauses l.body

/-- The loop, in a block if it has a label. -/
def labelled (l : LoopCode) : IL.Stmt :=
  match l.label with
  | none => l.loop
  | some x => .block (some x) [l.loop]

/-- The statements that enter the loop, and the loop. -/
def stmts (l : LoopCode) : List IL.Stmt := l.before ++ [l.labelled]

end LoopCode

/-- The parts of a lowered loop: its witness is havocked where it is entered, its clauses are those
of its invariants and others, and its iterations start by checking the invariants to be defined
where the witness is false. -/
structure LoopCode.Checks (l : LoopCode) (env : Env) (v : View) (w : String) (invs : List Spec)
    (code : List IL.Stmt) : Prop where
  before : ∃ before, l.before = before ++ [.havoc w]
  parts : ∃ ps others measured, List.Forall₂ (IsInvariant env v (.var w)) invs ps ∧
    l.clauses = ps.flatMap (·.1) ++ others ∧
    l.body = .ifElse (some (IL.Expr.var w).neg)
      (ps.flatMap (·.2) ++ measured ++ [.assume .ff]) [] :: code

/-- The contract of a loop, and the guards that it evaluates when an iteration starts. -/
def Source.Stmt.loop? : Source.Stmt → Option (LoopSpec × List Source.Expr)
  | .loop _ spec guard _ => some (spec, guard.toList)
  | .altLoop _ spec alts _ => some (spec, alts.map (·.1))
  | _ => none

/-- Statements that start by checking expressions to be defined. -/
def StartsChecked (env : Env) (v : View) (es : List Source.Expr) (ss : List IL.Stmt) : Prop :=
  ∃ checks rest, List.Forall₂ (fun e cs => (definedness v {} e).Returns env cs) es checks ∧
    ss = checks.flatten ++ rest

section

variable {b : Body} {v : View} {span : Span} {spec : LoopSpec} {c : Context} {s₀ s s' : Progress}
  {l : LoopFrame} {ss : List IL.Stmt}

theorem StartsChecked.append {env : Env} {es : List Source.Expr} (h : StartsChecked env v es ss)
    (ts : List IL.Stmt) : StartsChecked env v es (ss ++ ts) := by
  obtain ⟨checks, rest, hchecks, rfl⟩ := h
  exact ⟨checks, rest ++ ts, hchecks, List.append_assoc _ _ _⟩

theorem define_emits {e : Source.Expr} (hs : s₀.Later c s)
    (h : (BodyM.define v e).Emits c s () ss s') :
    (definedness v {} e).Returns (s₀.env c) ss ∧ s₀.Later c s' := by
  obtain ⟨checks, hchecks, h'⟩ := BodyM.emits_expr_bind.1 h
  obtain ⟨rfl, -⟩ := BodyM.emits_add.1 h'
  exact ⟨((definedness_stable v {} e).returns hs.same).1 hchecks,
    hs.trans (BodyM.Lasts.define v e h)⟩

theorem defineAll_emits {es : List Source.Expr} (hs : s₀.Later c s)
    (h : (es.forM (BodyM.define v)).Emits c s () ss s') :
    StartsChecked (s₀.env c) v es ss := by
  suffices ∃ checks, List.Forall₂ (fun e cs => (definedness v {} e).Returns (s₀.env c) cs) es
      checks ∧ ss = checks.flatten from
    this.elim fun checks h => ⟨checks, [], h.1, by rw [h.2, List.append_nil]⟩
  induction es generalizing s ss with
  | nil =>
    obtain ⟨-, rfl, -⟩ := BodyM.emits_pure.1 h
    exact ⟨[], .nil, rfl⟩
  | cons e es ih =>
    obtain ⟨_, s₁, ss₁, ss₂, he, hes, rfl⟩ := BodyM.emits_bind.1 h
    obtain ⟨hchecked, h₁⟩ := define_emits hs he
    obtain ⟨checks, hchecks, rfl⟩ := ih h₁ hes
    exact ⟨ss₁ :: checks, .cons hchecked hchecks, rfl⟩

theorem leaveUnless_emits {guard : Option Source.Expr} (hs : s₀.Later c s)
    (h : (l.leaveUnless guard).Emits c s () ss s') :
    StartsChecked (s₀.env c) l.view guard.toList ss := by
  cases guard with
  | none => exact ⟨[], ss, .nil, rfl⟩
  | some g =>
    obtain ⟨x, s₁, ss₁, ss₂, hx, -, rfl⟩ := BodyM.emits_bind.1 h
    obtain ⟨_, s₂, ss₃, ss₄, hdefine, -, rfl⟩ := BodyM.emits_bind.1 hx
    refine ⟨[ss₃], ss₄ ++ ss₂, .cons (define_emits hs hdefine).1 .nil, ?_⟩
    simp

/-- A loop is closed with an iteration as its body. -/
theorem close_emits {iteration : BodyM (List MeasureValue)}
    (h : (l.close span spec iteration).Emits c s () ss s') :
    ∃ olds code after s₁, iteration.Emits c s olds code s₁ ∧
      ss = [(LoopCode.mk spec.label [] l.invariants
        (l.wellFormed ++ (code ++ after))).labelled] := by
  obtain ⟨body, s₁, _, ss₁, hbody, h, rfl⟩ := BodyM.emits_bind.1 h
  obtain ⟨hiteration, rfl⟩ := BodyM.emits_block.1 hbody
  obtain ⟨olds, s₂, code, after, hcode, -, rfl⟩ := BodyM.emits_bind.1 hiteration
  refine ⟨olds, code, after, s₂, hcode, ?_⟩
  unfold LoopCode.labelled
  dsimp only at h ⊢
  split at h
  · obtain ⟨rfl, -⟩ := BodyM.emits_add.1 h
    simp_all [LoopCode.loop]
  · obtain ⟨rfl, -⟩ := BodyM.emits_add.1 h
    simp_all [LoopCode.loop]

/-- A loop that was entered and iterates as follows. -/
theorem LoopFrame.Entered.checks {s₁ : Progress} (hl : l.Entered c s v spec s₁)
    (before code : List IL.Stmt) :
    (LoopCode.mk spec.label (before ++ [.havoc (Naming.loopWitness (s.decl.counter + 1))])
      l.invariants (l.wellFormed ++ code)).Checks (s.env c)
      (v.inLoop (s.decl.counter + 1) spec.modifies) (Naming.loopWitness (s.decl.counter + 1))
      spec.invariants code := by
  obtain ⟨ps, others, measured, hps, hclauses, hchecks⟩ := hl.parts
  rw [hl.view, hl.number] at hps
  rw [hl.number] at hchecks
  exact ⟨⟨before, rfl⟩, ps, others, measured, hps, hclauses, by rw [hchecks]; rfl⟩

/-- A loop is lowered to code that checks its contract, in iterations that start by checking the
guards to be defined. -/
theorem emits_loop {stmt : Source.Stmt} {guards : List Source.Expr}
    (hloop : stmt.loop? = some (spec, guards)) (h : (b.lowerStmt v stmt).Emits c s () ss s') :
    ∃ (l : LoopCode) (code : List IL.Stmt), l.stmts = ss ∧
      l.Checks (s.env c) (v.inLoop (s.decl.counter + 1) spec.modifies)
        (Naming.loopWitness (s.decl.counter + 1)) spec.invariants code ∧
      StartsChecked (s.env c) (v.inLoop (s.decl.counter + 1) spec.modifies) guards code := by
  cases stmt with
  | loop sp spec' guard body =>
    obtain ⟨rfl, rfl⟩ : spec' = spec ∧ guard.toList = guards := by
      simpa [Source.Stmt.loop?] using hloop
    rw [Body.lowerStmt] at h
    obtain ⟨l, s₁, ss₁, ss₂, henter, hclose, rfl⟩ := BodyM.emits_bind.1 h
    obtain ⟨hl, before, rfl⟩ := LoopFrame.emits_enter henter
    obtain ⟨olds, code, after, s₂, hcode, rfl⟩ := close_emits hclose
    obtain ⟨_, s₃, ss₃, ss₄, hleave, -, rfl⟩ := BodyM.emits_bind.1 hcode
    have hguard := leaveUnless_emits hl.later hleave
    rw [hl.view, hl.number] at hguard
    exact ⟨_, _, rfl, hl.checks before _, (hguard.append ss₄).append after⟩
  | altLoop sp spec' alts body =>
    obtain ⟨rfl, rfl⟩ : spec' = spec ∧ alts.map (·.1) = guards := by
      simpa [Source.Stmt.loop?] using hloop
    simp only [Body.lowerStmt] at h
    obtain ⟨l, s₁, ss₁, ss₂, henter, hclose, rfl⟩ := BodyM.emits_bind.1 h
    obtain ⟨hl, before, rfl⟩ := LoopFrame.emits_enter henter
    obtain ⟨olds, code, after, s₂, hcode, rfl⟩ := close_emits hclose
    obtain ⟨_, s₃, ss₃, ss₄, hdefine, -, rfl⟩ := BodyM.emits_bind.1 hcode
    have hguards := defineAll_emits hl.later hdefine
    rw [hl.view, hl.number] at hguards
    exact ⟨_, _, rfl, hl.checks before _, (hguards.append ss₄).append after⟩
  | _ => cases hloop

end

/-! ## Real iterations -/

section

variable {M : Model} {procs : List Procedure} {old ρ ρ' σ τ : M.Valuation} {env : Env} {v : View}
  {spec : LoopSpec} {l : LoopCode} {w : String}

/-- An expression is defined: its obligations hold. -/
def Defined (env : Env) (old : M.Valuation) (v : View) (σ : M.Valuation) (e : Source.Expr) : Prop :=
  ∃ x, (isTotal v e).Returns env x ∧ Holds old σ x

/-- The functions that an expression calls may be called. -/
def Callable (env : Env) (old : M.Valuation) (v : View) (σ : M.Valuation) (e : Source.Expr) :
    Prop :=
  ∃ x, (canCall v e).Returns env x ∧ Holds old σ x

namespace LoopCode

/-- A loop is entered in a state with its witness set. -/
def Enters (l : LoopCode) (w : String) (procs : List Procedure) (old ρ σ : M.Valuation) : Prop :=
  ∃ tr, Exec procs old l.before ρ tr (.done σ) ∧ tr.Proper ∧ Holds old σ (.var w)

/-- An iteration really starts in a state: one with the witness set, since the others only check the
contract. -/
def Iterates (l : LoopCode) (w : String) (procs : List Procedure) (old ρ σ : M.Valuation) : Prop :=
  ∃ ρ', l.Enters w procs old ρ ρ' ∧ Heads procs old l.body ρ' σ

end LoopCode

/-- The witness is a name of its own: what the invariants are lowered to does not mention it, the
clauses do so only as their condition, and no iteration assigns it. -/
structure FreshWitness (procs : List Procedure) (env : Env) (v : View) (w : String)
    (spec : LoopSpec) (l : LoopCode) : Prop where
  formulas : ∀ inv ∈ spec.invariants, ∀ x, (lowerExpr v inv.expr).Returns env x ∨
    (isTotal v inv.expr).Returns env x ∨ (canCall v inv.expr).Returns env x → w ∉ x.names
  clauses : ∀ k ∈ l.clauses, w ∉ k.expr.names ∨ ∃ x, k.expr = .imp (.var w) x
  body : w ∉ IL.Stmt.targetsAll procs l.body

theorem holds_update {e : IL.Expr} {a : M.Val} (h : w ∉ e.names) :
    Holds old (Function.update σ w a) e ↔ Holds old σ e := by
  rw [Holds, Holds, IL.Expr.eval_update e h]

namespace LoopCode

/-- A loop is verified where it is entered. -/
theorem verified_loop (h : Verified procs old l.stmts ρ) {tr : Trace M}
    (hexec : Exec procs old l.before ρ tr (.done σ)) (hproper : tr.Proper) :
    Verified procs old [l.loop] σ := by
  have hloop := h.after hexec hproper
  unfold labelled at hloop
  split at hloop
  · exact hloop
  · exact hloop.inside (.block _ _)

variable {before : List IL.Stmt}

/-- A loop may be entered with any value of its witness. -/
theorem enters_update (hbefore : l.before = before ++ [.havoc w]) {tr : Trace M}
    (hexec : Exec procs old l.before ρ tr (.done σ)) (hproper : tr.Proper) (a : M.Val) :
    ∃ tr', Exec procs old l.before ρ tr' (.done (Function.update σ w a)) ∧ tr'.Proper := by
  rw [hbefore] at hexec ⊢
  obtain ⟨σ', tr₁, tr₂, hexec₁, hexec₂, rfl⟩ := hexec.split
  obtain ⟨x, rfl⟩ : ∃ x, σ = Function.update σ' w x := by
    cases hexec₂ with
    | step h hs =>
      cases h
      cases hs
      exact ⟨_, rfl⟩
    | through ho | leftIt ho | escape ho => cases ho
  rw [Function.update_idem]
  refine ⟨_, hexec₁.append (.step (.havoc w a σ') (.nil _)), Trace.proper_append.2
    ⟨(Trace.proper_append.1 hproper).1, ?_⟩⟩
  intro _ _ _ hmem
  simp at hmem

end LoopCode

/-! ## What the contract says of an iteration -/

section

variable {invs : List Spec} {ps : List (List Clause × List IL.Stmt)}

/-- Where the witness is set and the clauses of the invariants hold, the invariants do, and their
calls are permitted. -/
theorem holds_of_clauses (hps : List.Forall₂ (IsInvariant env v (.var w)) invs ps)
    (hw : Holds old σ (.var w)) (hclauses : ∀ k ∈ ps.flatMap (·.1), Holds old σ k.expr) :
    ∀ inv ∈ invs, Succeeds env old v σ inv.expr ∧ Callable env old v σ inv.expr := by
  intro inv hinv
  obtain ⟨p, hp, x, calls, checks, k, hx, hcalls, -, hk, rfl⟩ := exists_of_forall₂ hps.flip hinv
  have hholds := hclauses k (List.mem_flatMap.2 ⟨_, hp, by simp⟩)
  have hcall := hclauses (.assumed (.imp (.var w) calls)) (List.mem_flatMap.2 ⟨_, hp, by simp⟩)
  rw [hk, holds_imp] at hholds
  exact ⟨⟨x, hx, hholds hw⟩, calls, hcalls, (holds_imp _ _).1 hcall hw⟩

/-- Where the invariants hold and their calls are permitted, what checks them to be defined assumes
nothing wrong. -/
theorem holds_assumed (hps : List.Forall₂ (IsInvariant env v (.var w)) invs ps)
    (hinvs : ∀ inv ∈ invs, Succeeds env old v σ inv.expr ∧ Callable env old v σ inv.expr) :
    ∀ e ∈ IL.Stmt.assumed (ps.flatMap (·.2)), Holds old σ e := by
  intro e he
  obtain ⟨t, ht, hte⟩ := List.mem_filterMap.1 he
  obtain ⟨p, hp, ht⟩ := List.mem_flatMap.1 ht
  obtain ⟨inv, hinv, x, calls, checks, k, hx, hcalls, hchecks, -, rfl⟩ := exists_of_forall₂ hps hp
  obtain ⟨⟨y, hy, hholds⟩, z, hz, hcall⟩ := hinvs inv hinv
  obtain rfl := hx.unique hy
  have hz := hz.unique (definedness_splits hchecks).2.1
  subst hz
  rcases List.mem_append.1 ht with ht | ht
  · exact (holds_conj _).1 hcall e (List.mem_filterMap.2 ⟨t, ht, hte⟩)
  · obtain rfl := List.mem_singleton.1 ht
    obtain rfl := Option.some.inj hte
    exact hholds

/-- Where code that checks invariants to be defined is verified, they are, if they hold and their
calls are permitted. -/
theorem defined_of_checks (hps : List.Forall₂ (IsInvariant env v (.var w)) invs ps)
    {before rest : List IL.Stmt} (hbefore : ∀ t ∈ before, t.isCondition = true)
    (hassumed : ∀ e ∈ IL.Stmt.assumed before, Holds old σ e)
    (hinvs : ∀ inv ∈ invs, Succeeds env old v σ inv.expr ∧ Callable env old v σ inv.expr)
    (hverified : Verified procs old (before ++ ps.flatMap (·.2) ++ rest) σ) :
    ∀ inv ∈ invs, Defined env old v σ inv.expr := by
  have hconditions : ∀ t ∈ before ++ ps.flatMap (·.2), t.isCondition = true := by
    refine List.forall_mem_append.2 ⟨hbefore, fun t ht => ?_⟩
    obtain ⟨p, hp, ht⟩ := List.mem_flatMap.1 ht
    obtain ⟨inv, -, x, calls, checks, k, -, -, hchecks, -, rfl⟩ := exists_of_forall₂ hps hp
    rcases List.mem_append.1 ht with ht | ht
    · exact (definedness_splits hchecks).2.2 t ht
    · obtain rfl := List.mem_singleton.1 ht
      rfl
  have hasserted := hverified.asserted hconditions (by
    rw [IL.Stmt.assumed_append]
    exact List.forall_mem_append.2 ⟨hassumed, holds_assumed hps hinvs⟩)
  intro inv hinv
  obtain ⟨p, hp, x, calls, checks, k, -, -, hchecks, -, rfl⟩ := exists_of_forall₂ hps.flip hinv
  refine ⟨_, (definedness_splits hchecks).1, (holds_conj _).2 fun e he => hasserted e ?_⟩
  obtain ⟨t, ht, hte⟩ := List.mem_filterMap.1 he
  exact List.mem_filterMap.2 ⟨t, List.mem_append_right _ (List.mem_flatMap.2
    ⟨_, hp, List.mem_append_left _ ht⟩), hte⟩

/-- Expressions that verified code starts by checking are defined, if their calls are permitted. -/
theorem defined_of_startsChecked {es : List Source.Expr} {ss : List IL.Stmt}
    (h : StartsChecked env v es ss) (hverified : Verified procs old ss σ)
    (hcalls : ∀ e ∈ es, Callable env old v σ e) : ∀ e ∈ es, Defined env old v σ e := by
  obtain ⟨checks, rest, hchecks, rfl⟩ := h
  have hconditions : ∀ t ∈ checks.flatten, t.isCondition = true := by
    intro t ht
    obtain ⟨cs, hcs, ht⟩ := List.mem_flatten.1 ht
    obtain ⟨e, -, he⟩ := exists_of_forall₂ hchecks hcs
    exact (definedness_splits he).2.2 t ht
  have hasserted := hverified.asserted hconditions fun f hf => by
    obtain ⟨t, ht, htf⟩ := List.mem_filterMap.1 hf
    obtain ⟨cs, hcs, ht⟩ := List.mem_flatten.1 ht
    obtain ⟨e, he, hdefined⟩ := exists_of_forall₂ hchecks hcs
    obtain ⟨x, hx, hcall⟩ := hcalls e he
    obtain rfl := hx.unique (definedness_splits hdefined).2.1
    exact (holds_conj _).1 hcall f (List.mem_filterMap.2 ⟨t, ht, htf⟩)
  intro e he
  obtain ⟨cs, hcs, hdefined⟩ := exists_of_forall₂ hchecks.flip he
  refine ⟨_, (definedness_splits hdefined).1, (holds_conj _).2 fun f hf => hasserted f ?_⟩
  obtain ⟨t, ht, htf⟩ := List.mem_filterMap.1 hf
  exact List.mem_filterMap.2 ⟨t, List.mem_flatten.2 ⟨cs, hcs, ht⟩, htf⟩

end

/-! ## Soundness -/

/-- The branch of an iteration that checks the contract of the loop, taken where the witness is
false. -/
theorem verified_checks {defined code : List IL.Stmt} {witness : IL.Expr}
    (h : Verified procs old (.ifElse (some witness.neg) defined [] :: code) σ) :
    Verified procs old (.assume witness.neg :: defined) σ :=
  h.inside (.thn _ _ _)

/-- Where the witness is set, an iteration passes the check of the contract. -/
theorem verified_code {defined code : List IL.Stmt} {witness : IL.Expr}
    (h : Verified procs old (.ifElse (some witness.neg) defined [] :: code) σ)
    (hw : Holds old σ witness) : Verified procs old code σ := by
  refine h.past (.els _ _ _) (.step (.assume _ σ) (.nil σ)) ?_
  intro old' σ' e he
  obtain ⟨rfl, rfl, rfl⟩ : old' = old ∧ σ' = σ ∧ e = .not witness.neg := by simpa using he
  rw [holds_not, holds_neg, not_not]
  exact hw

/-- Where an iteration really starts, the invariants are defined and hold, and the rest of the
iteration is verified. -/
theorem LoopCode.Checks.keeps {code : List IL.Stmt} (hl : l.Checks env v w spec.invariants code)
    (hverified : Verified procs old l.stmts ρ) (hfresh : FreshWitness procs env v w spec l)
    (hfree : ∀ σ, l.Iterates w procs old ρ σ → ∀ k ∈ l.clauses, k.free = true → Holds old σ k.expr)
    (hσ : l.Iterates w procs old ρ σ) :
    (∀ inv ∈ spec.invariants, Defined env old v σ inv.expr ∧ Succeeds env old v σ inv.expr) ∧
      Verified procs old code σ := by
  obtain ⟨before, hbefore⟩ := hl.before
  obtain ⟨ps, others, measured, hps, hclauses, hbody⟩ := hl.parts
  obtain ⟨ρ', ⟨tr, hexec, hproper, hset⟩, hheads⟩ := hσ
  have hloop := verified_loop hverified hexec hproper
  have hfree' : ∀ σ, Heads procs old l.body ρ' σ → ∀ k ∈ l.clauses, k.free = true →
      Holds old σ k.expr := fun σ h => hfree σ ⟨ρ', ⟨tr, hexec, hproper, hset⟩, h⟩
  have hall := hheads.holds hloop hfree'
  have hw : Holds old σ (.var w) := by
    rw [Holds, Expr.eval_var, hheads.unchanged hfresh.body]
    exact hset
  have hinvs := holds_of_clauses hps hw fun k hk =>
    hall k (hclauses ▸ List.mem_append_left _ hk)
  -- the cut considers this iteration with the witness false as well, where all clauses hold
  obtain ⟨tr', hexec', hproper'⟩ := enters_update hbefore hexec hproper (M.ofProp False)
  have hunset : ¬ Holds old (Function.update σ w (M.ofProp False)) (.var w) := by
    simp [Holds]
  have hbody' : Verified procs old l.body (Function.update σ w (M.ofProp False)) := by
    refine (verified_loop hverified hexec' hproper').iteration (fun x hx => ?_) fun k hk => ?_
    · by_cases hxw : x = w
      · simp [hxw]
      · rw [Function.update_of_ne hxw, Function.update_of_ne hxw, hheads.unchanged hx]
    · rcases hfresh.clauses k hk with hnames | ⟨x, hx⟩
      · exact (holds_update hnames).2 (hall k hk)
      · rw [hx, holds_imp]
        exact fun h => (hunset h).elim
  have hinvs' : ∀ inv ∈ spec.invariants,
      Succeeds env old v (Function.update σ w (M.ofProp False)) inv.expr ∧
      Callable env old v (Function.update σ w (M.ofProp False)) inv.expr := by
    intro inv hinv
    obtain ⟨⟨x, hx, hholds⟩, y, hy, hcall⟩ := hinvs inv hinv
    exact ⟨⟨x, hx, (holds_update (hfresh.formulas inv hinv x (.inl hx))).2 hholds⟩,
      y, hy, (holds_update (hfresh.formulas inv hinv y (.inr (.inr hy)))).2 hcall⟩
  have hchecks : Verified procs old ([.assume (IL.Expr.var w).neg] ++ ps.flatMap (·.2) ++
      (measured ++ [.assume .ff])) (Function.update σ w (M.ofProp False)) := by
    have hthen := verified_checks (hbody ▸ hbody')
    simpa using hthen
  have hdefined := defined_of_checks hps (by simp [IL.Stmt.isCondition])
    (by simpa [IL.Stmt.assumed] using hunset) hinvs' hchecks
  refine ⟨fun inv hinv => ⟨?_, (hinvs inv hinv).1⟩, ?_⟩
  · obtain ⟨x, hx, hholds⟩ := hdefined inv hinv
    exact ⟨x, hx, (holds_update (hfresh.formulas inv hinv x (.inr (.inl hx)))).1 hholds⟩
  · have hiteration := (hheads.verified hloop hfree').iteration (fun _ _ => rfl) hall
    exact verified_code (hbody ▸ hiteration) hw

end

/-! ## A loop with one assignment -/

namespace Setting

/-- A loop that gives a variable the value 1, any number of times. -/
def loop (invs : List Spec) : Source.Stmt :=
  .loop default ⟨none, invs, some ⟨default, [], true⟩, none⟩ none
    (some (.assign default [.var default "x" .int] [.expr (.mkInt default 1)]))

/-- Its clauses besides those of its invariants. -/
def others : List Clause :=
  let preHeap : IL.Expr := .var (Naming.preLoopHeap 1)
  [.assumed (.conj [Prelude.isGoodHeap Prelude.heapVar, Prelude.heapSucc preHeap Prelude.heapVar]),
    .assumed (Heap.frameCondition preHeap Prelude.heapVar .tt)]

/-- Its code, with the clauses of its invariants and what is assumed to check these. -/
def code (own : List Clause) (checks : List IL.Expr) : LoopCode where
  label := none
  before := [.assign (Naming.preLoopHeap 1) Prelude.heapVar, .havoc (Naming.loopWitness 1)]
  clauses := own ++ others
  body := [.ifElse (some (IL.Expr.var (Naming.loopWitness 1)).neg)
      (checks.map .assume ++ [.assume .ff]) [],
    .ifElse none [.leave none] [], .assign "x" (.nat 1)]

/-- A predicate that holds of zero. -/
def pred : Function :=
  { (default : Function) with
    name := ⟨"M", ["C", "f"]⟩, params := [("k", .int)], result := ("r", .bool) }

def context : Context := { functions := [pred], options := { autoTriggers := false } }

/-- Integers and propositions. The predicate may never be called, other functions give true. -/
def app : String → List (Prop ⊕ Int) → Prop ⊕ Int
  | "M.C.f", [a] => .inl (a = .inr 0)
  | "canCall%M.C.f", _ => .inl False
  | _, _ => .inl True

def model : Model := { Nonneg.model with app := app }

/-- Invariants without calls. -/
def nonneg : Source.Expr := .mkRel default .le (.mkInt default 0) (.mkVar default "x" .int)
def zero : Source.Expr := .mkRel default .eq (.mkVar default "x" .int) (.mkInt default 0)
def falsity : Source.Expr := .bool ⟨default, .bool⟩ false

/-- The invariant that the predicate holds. -/
def call : Source.Expr := .call ⟨default, .bool⟩ pred.name none [.mkVar default "x" .int]

/-- The witness of the loop. -/
abbrev witness : IL.Expr := .var (Naming.loopWitness 1)

def zeros : model.Valuation := fun _ => .inr 0

/-- The state in which the loop is entered, with a value of its witness. -/
def entered (a : model.Val) : model.Valuation :=
  Function.update (Function.update zeros (Naming.preLoopHeap 1) (zeros Prelude.heapName))
    (Naming.loopWitness 1) a

theorem entered_x (a : model.Val) : entered a "x" = .inr 0 := rfl

variable {own : List Clause} {checks : List IL.Expr} {σ σ' : model.Valuation} {tr : Trace model}

theorem enters : (code own checks).Enters (Naming.loopWitness 1) [] zeros zeros
    (entered (.inl True)) := by
  refine ⟨_, .step (.assign _ _ _) (.step (.havoc _ (Sum.inl True) _) (.nil _)), ?_, trivial⟩
  intro _ _ _ hmem
  simp at hmem

/-- An iteration with the witness set gives the variable its value. -/
theorem exec_body (own : List Clause) (checks : List IL.Expr) (h : Holds zeros σ witness) :
    ∃ tr, Exec [] zeros (code own checks).body σ tr
      (.done (Function.update σ "x" ((IL.Expr.nat 1).eval zeros σ))) ∧ tr.Proper := by
  refine ⟨_, .through (.els _ _ _) (.step (.assume _ σ) (.nil σ))
    (.through (.els _ _ _) (.nil σ) (.step (.assign _ _ σ) (.nil _))), ?_⟩
  intro old ρ e hmem
  obtain ⟨rfl, rfl, rfl⟩ : old = zeros ∧ ρ = σ ∧ e = .not witness.neg := by simpa using hmem
  rw [holds_not, holds_neg, not_not]
  exact h

/-- Iterations end only if the witness is set, and change nothing but the variable. -/
theorem of_exec_body (h : Exec [] zeros (code own checks).body σ tr (.done σ'))
    (hproper : tr.Proper) :
    Holds zeros σ witness ∧ σ' = Function.update σ "x" ((IL.Expr.nat 1).eval zeros σ) := by
  change Exec [] zeros ([_] ++ ([_] ++ [_])) σ tr (.done σ') at h
  obtain ⟨σ₁, tr₁, _, hchecks, hrest, rfl⟩ := h.split
  obtain ⟨σ₂, tr₂, _, hleave, hassign, rfl⟩ := hrest.split
  obtain ⟨hproper₁, -⟩ := Trace.proper_append.1 hproper
  obtain rfl : σ₁ = σ := funext fun x => hchecks.unchanged (by
    simp [IL.Stmt.targetsAll, IL.Stmt.targets, IL.Stmt.targetsAll_append,
      IL.Stmt.targetsAll_assumes])
  obtain rfl : σ₂ = σ₁ := funext fun x => hleave.unchanged (by
    simp [IL.Stmt.targetsAll, IL.Stmt.targets])
  refine ⟨?_, ?_⟩
  · rcases hchecks.of_ifElse with hthen | helse
    · have hassumed := Exec.of_assumes (witness.neg :: (checks ++ [.ff]))
        (by simpa [assumeGuard] using hthen) hproper₁
      exact (holds_ff (hassumed .ff (by simp))).elim
    · have hassumed := Exec.of_assumes [.not witness.neg] helse hproper₁
      simpa using hassumed
  · cases hassign with
    | step hs hnil =>
      cases hs
      cases hnil
      rfl
    | through ho | leftIt ho | escape ho => cases ho

theorem verified_body : Verified [] zeros (code own checks).body σ := by
  have rest {ρ : model.Valuation} :
      Verified [] zeros [.ifElse none [.leave none] [], .assign "x" (.nat 1)] ρ :=
    .ifElse .leave .nil fun _ _ _ _ _ _ => .assign .nil
  refine .ifElse ?_ (.assume fun _ => .nil) fun _ _ _ _ _ _ => rest
  have hassumes : Verified [] zeros ((witness.neg :: (checks ++ [.ff])).map .assume ++ []) σ :=
    .assumes _ fun _ => .nil
  simpa [assumeGuard] using hassumes

/-- The loop is verified if its invariants hold on entry and are kept by the assignment. -/
theorem verified (hentry : ∀ a, ∀ k ∈ own, k.free = false → Holds zeros (entered a) k.expr)
    (hkept : ∀ σ, Holds zeros σ witness → (∀ k ∈ own, Holds zeros σ k.expr) →
      ∀ k ∈ own, k.free = false →
        Holds zeros (Function.update σ "x" ((IL.Expr.nat 1).eval zeros σ)) k.expr) :
    Verified [] zeros (code own checks).stmts zeros := by
  refine .assign (.havoc fun a => Verified.loop_iff.2 ⟨fun k hk hfree => ?_, fun σ _ hks =>
    ⟨verified_body, fun tr ρ' hexec hproper k hk hfree => ?_⟩⟩)
  · rcases List.mem_append.1 hk with hk | hk
    · exact hentry a k hk hfree
    · simp [others] at hk
      rcases hk with rfl | rfl <;> cases hfree
  · obtain ⟨hw, rfl⟩ := of_exec_body hexec hproper
    rcases List.mem_append.1 hk with hk | hk
    · exact hkept σ hw (fun k hk => hks k (List.mem_append_left _ hk)) k hk hfree
    · simp [others] at hk
      rcases hk with rfl | rfl <;> cases hfree

theorem holds_others : ∀ k ∈ others, Holds zeros σ k.expr := by
  refine List.forall_mem_cons.2 ⟨?_, List.forall_mem_singleton.2 ?_⟩
  · simp only [Clause.assumed, holds_conj]
    exact List.forall_mem_cons.2 ⟨trivial, List.forall_mem_singleton.2 trivial⟩
  · simp only [Clause.assumed, Heap.frameCondition, holds_all]
    exact fun _ _ => holds_tt

theorem iterates : (code own checks).Iterates (Naming.loopWitness 1) [] zeros zeros
    (Function.update (entered (.inl True)) "x"
      ((IL.Expr.nat 1).eval zeros (entered (.inl True)))) := by
  obtain ⟨tr, hexec, hproper⟩ := exec_body own checks (σ := entered (.inl True)) trivial
  exact ⟨_, enters, .next .entry hexec hproper⟩

/-- A loop is verified, and its clauses besides those of its invariants hold whenever an iteration
starts, but an iteration starts where an invariant fails. -/
def Fails (invs : List Spec) (inv : Source.Expr) : Prop :=
  ∃ (l : LoopCode) (ps : List (List Clause × List IL.Stmt)) (rest : List Clause) (s' : Progress),
    (Body.lowerStmt {} entryView (loop invs)).Emits context {} () l.stmts s' ∧
    List.Forall₂ (IsInvariant (Progress.env {} context) entryView witness) invs ps ∧
    l.clauses = ps.flatMap (·.1) ++ rest ∧
    Verified [] zeros l.stmts zeros ∧
    (∀ σ, l.Iterates (Naming.loopWitness 1) [] zeros zeros σ → ∀ k ∈ rest, Holds zeros σ k.expr) ∧
    ∃ σ, l.Iterates (Naming.loopWitness 1) [] zeros zeros σ ∧
      ¬ Succeeds (Progress.env {} context) zeros entryView σ inv

theorem fails {invs : List Spec} {inv : Source.Expr} (ps : List (List Clause × List IL.Stmt))
    (checks : List IL.Expr)
    (hemits : ∃ s', (Body.lowerStmt {} entryView (loop invs)).Emits context {} ()
      (code (ps.flatMap (·.1)) checks).stmts s')
    (hps : List.Forall₂ (IsInvariant (Progress.env {} context) entryView witness) invs ps)
    (hentry : ∀ a, ∀ k ∈ ps.flatMap (·.1), k.free = false → Holds zeros (entered a) k.expr)
    (hnone : ∀ σ, Holds zeros σ witness → ∃ k ∈ ps.flatMap (·.1), ¬ Holds zeros σ k.expr)
    {x : IL.Expr} (hx : (lowerExpr entryView inv).Returns (Progress.env {} context) x)
    (hfails : ∀ σ, ¬ Holds zeros (Function.update σ "x" ((IL.Expr.nat 1).eval zeros σ)) x) :
    Fails invs inv := by
  obtain ⟨s', hemits⟩ := hemits
  refine ⟨_, ps, others, s', hemits, hps, rfl, verified hentry fun σ hw hholds => ?_,
    fun _ _ => holds_others, _, iterates, fun ⟨y, hy, hholds⟩ => ?_⟩
  · obtain ⟨k, hk, hnot⟩ := hnone σ hw
    exact (hnot (hholds k hk)).elim
  · obtain rfl := hx.unique hy
    exact hfails _ hholds

/-- An invariant that is checked, as a clause. -/
def checked (x : IL.Expr) : Clause :=
  .checked (.error "loop invariant might not hold" default) (.imp witness x)

theorem holds_checked {x : IL.Expr} (h : Holds zeros σ x) : Holds zeros σ (checked x).expr :=
  (holds_imp witness x).2 fun _ => h

/-- What the invariants are lowered to. -/
def isZero : IL.Expr := .eq (.var "x") (.nat 0)
def isCalled : IL.Expr := .app "M.C.f" [.var "x"]
def mayCall : IL.Expr := .app "canCall%M.C.f" [.var "x"]
def isNonneg : IL.Expr := .le (.nat 0) (.var "x")

theorem holds_isZero : Holds zeros σ isZero ↔ σ "x" = .inr 0 := by
  rw [isZero, holds_eq, Expr.eval_var, Expr.eval_nat]
  rfl

theorem holds_isCalled : Holds zeros σ isCalled ↔ σ "x" = .inr 0 := Iff.rfl

theorem not_holds_mayCall : ¬ Holds zeros σ mayCall := id

theorem holds_isNonneg : Holds zeros σ isNonneg ↔ 0 ≤ model.toInt (σ "x") := by
  rw [isNonneg, holds_le, Expr.eval_var, Expr.eval_nat, Model.toInt_ofInt]
  rfl

theorem one_ne_zero : Function.update σ "x" ((IL.Expr.nat 1).eval zeros σ) "x" ≠ .inr 0 := by
  rw [Function.update_self, Expr.eval_nat]
  intro h
  cases h

/-- The parts of a loop with a free invariant that is false. -/
def freeParts : List (List Clause × List IL.Stmt) :=
  [([.assumed witness.neg, .assumed .tt], [.assume .ff]),
    ([checked isZero, .assumed .tt], [.assume isZero])]

theorem fails_free : Fails [⟨falsity, true, false⟩, ⟨zero, false, false⟩] zero := by
  have hps : List.Forall₂ (IsInvariant (Progress.env {} context) entryView witness)
      [⟨falsity, true, false⟩, ⟨zero, false, false⟩] freeParts :=
    .cons ⟨.ff, .tt, [], _, rfl, rfl, rfl, rfl, rfl⟩
      (.cons ⟨isZero, .tt, [], _, rfl, rfl, rfl, rfl, rfl⟩ .nil)
  refine fails freeParts [.ff, isZero] ⟨_, rfl⟩ hps (fun a k hk hfree => ?_)
    (fun σ hw => ⟨.assumed witness.neg, List.mem_cons_self, fun h => (holds_neg _).1 h hw⟩)
    (x := isZero) rfl fun σ h => one_ne_zero (holds_isZero.1 h)
  obtain rfl | rfl | rfl : k = .assumed witness.neg ∨ k = .assumed .tt ∨ k = checked isZero := by
    simpa [freeParts, or_comm, or_left_comm] using hk
  · cases hfree
  · cases hfree
  · exact holds_checked (holds_isZero.2 (entered_x a))

/-- The parts of a loop with an invariant that calls the predicate. -/
def callParts : List (List Clause × List IL.Stmt) :=
  [([checked isCalled, .assumed (.imp witness mayCall)], [.assume mayCall, .assume isCalled])]

theorem fails_call : Fails [⟨call, false, false⟩] call := by
  have hps : List.Forall₂ (IsInvariant (Progress.env {} context) entryView witness)
      [⟨call, false, false⟩] callParts :=
    .cons ⟨isCalled, mayCall, [.assume _], _, rfl, rfl, rfl, rfl, rfl⟩ .nil
  refine fails callParts [mayCall, isCalled] ⟨_, rfl⟩ hps (fun a k hk hfree => ?_)
    (fun σ hw => ⟨.assumed (.imp witness mayCall), List.mem_cons_of_mem _ List.mem_cons_self,
      fun h => not_holds_mayCall ((holds_imp _ _).1 h hw)⟩)
    (x := isCalled) rfl fun σ h => one_ne_zero (holds_isCalled.1 h)
  obtain rfl | rfl : k = checked isCalled ∨ k = .assumed (.imp witness mayCall) := by
    simpa [callParts] using hk
  · exact holds_checked (holds_isCalled.2 (entered_x a))
  · cases hfree

end Setting

namespace Setting

/-- The loop with the invariant that the variable is not negative. -/
abbrev nonnegCode : LoopCode := code [checked isNonneg, .assumed .tt] [isNonneg]

theorem emits_nonneg : ∃ s', (Body.lowerStmt {} entryView (loop [⟨nonneg, false, false⟩])).Emits
    context {} () nonnegCode.stmts s' := ⟨_, rfl⟩

/-- The parts of a loop can be told from its statements. -/
theorem code_of_stmts {l : LoopCode} (h : l.stmts = (code own checks).stmts) :
    l = code own checks := by
  obtain ⟨label, before, clauses, body⟩ := l
  obtain ⟨hbefore, hloop⟩ := List.append_inj' h rfl
  cases label with
  | none =>
    cases hloop
    cases hbefore
    rfl
  | some x =>
    cases hloop

theorem verified_nonneg : Verified [] zeros nonnegCode.stmts zeros := by
  have holds {σ : model.Valuation} (h : 0 ≤ model.toInt (σ "x")) :
      ∀ k ∈ [checked isNonneg, .assumed .tt], k.free = false → Holds zeros σ k.expr := by
    intro k hk _
    obtain rfl | rfl : k = checked isNonneg ∨ k = .assumed .tt := by simpa using hk
    · exact holds_checked (holds_isNonneg.2 h)
    · exact holds_tt
  refine verified (fun a => holds (Int.le_refl 0)) fun σ _ _ => holds ?_
  rw [Function.update_self, Expr.eval_nat, Model.toInt_ofInt]
  exact Int.zero_le_ofNat 1

theorem freshWitness_nonneg {spec : LoopSpec} (hspec : spec.invariants = [⟨nonneg, false, false⟩]) :
    FreshWitness [] (Progress.env {} context) entryView (Naming.loopWitness 1) spec nonnegCode where
  formulas := by
    intro inv hinv x hx
    obtain rfl : inv = ⟨nonneg, false, false⟩ := by simpa [hspec] using hinv
    obtain rfl | rfl : x = isNonneg ∨ x = .tt := by
      rcases hx with hx | hx | hx
      · exact .inl (hx.unique (b := isNonneg) rfl)
      · exact .inr (hx.unique (b := IL.Expr.tt) rfl)
      · exact .inr (hx.unique (b := IL.Expr.tt) rfl)
    all_goals decide
  clauses := by
    simp only [code, others, List.cons_append, List.nil_append, List.forall_mem_cons]
    exact ⟨.inr ⟨isNonneg, rfl⟩, .inl (by decide), .inl (by decide), .inl (by decide), nofun⟩
  body := by decide

end Setting

end ContractLowering
