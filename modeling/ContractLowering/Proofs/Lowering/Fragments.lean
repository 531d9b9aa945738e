import ContractLowering.Lowering.Stmt
import ContractLowering.Proofs.Lowering.Steps

/-!
# The code of the statements inside a statement

`s.Runs c t` says that the execution of `s` may come to `t`: every part of a statement but a match
case that no constructor selects. The code of a statement holds the code of every statement that it
runs, with the view of the innermost loop around it (`lowerStmt_runs`).
-/

namespace ContractLowering

open IL Source BodyM

/-! ## Parts of code -/

/-- Statements stand one after the other somewhere in code, at any depth. -/
inductive Within (part : List IL.Stmt) : List IL.Stmt → Prop
  | here (before after : List IL.Stmt) : Within part (before ++ part ++ after)
  | thn {code guard thn els} (h : .ifElse guard thn els ∈ code) (hpart : Within part thn) :
      Within part code
  | els {code guard thn els} (h : .ifElse guard thn els ∈ code) (hpart : Within part els) :
      Within part code
  | loop {code guard invs body} (h : .loop guard invs body ∈ code) (hpart : Within part body) :
      Within part code
  | block {code label body} (h : .block label body ∈ code) (hpart : Within part body) :
      Within part code

namespace Within

variable {part mid code : List IL.Stmt}

theorem refl (part : List IL.Stmt) : Within part part := by
  simpa using (here [] [] : Within part _)

theorem append (h : Within part mid) (before after : List IL.Stmt) :
    Within part (before ++ mid ++ after) := by
  cases h with
  | here b a => simpa using (here (before ++ b) (a ++ after) : Within part _)
  | thn h hp => exact thn (List.mem_append_left _ (List.mem_append_right _ h)) hp
  | els h hp => exact els (List.mem_append_left _ (List.mem_append_right _ h)) hp
  | loop h hp => exact loop (List.mem_append_left _ (List.mem_append_right _ h)) hp
  | block h hp => exact block (List.mem_append_left _ (List.mem_append_right _ h)) hp

theorem trans (h : Within part mid) (h' : Within mid code) : Within part code := by
  induction h' with
  | here before after => exact h.append before after
  | thn hc _ ih => exact thn hc ih
  | els hc _ ih => exact els hc ih
  | loop hc _ ih => exact loop hc ih
  | block hc _ ih => exact block hc ih

theorem left (h : Within part mid) (after : List IL.Stmt) : Within part (mid ++ after) := by
  simpa using h.append [] after

theorem right (h : Within part mid) (before : List IL.Stmt) : Within part (before ++ mid) := by
  simpa using h.append before []

end Within

/-- An arm of a cascade stands in it. -/
theorem within_cascade {branches : List (Option IL.Expr × List IL.Stmt)}
    {b : Option IL.Expr × List IL.Stmt} (hb : b ∈ branches) : Within b.2 (cascade branches) := by
  induction branches with
  | nil => simp at hb
  | cons c rest ih =>
    cases rest with
    | nil =>
      obtain rfl : b = c := by simpa using hb
      exact .refl _
    | cons d rest =>
      rcases List.mem_cons.1 hb with rfl | hb
      · exact .thn List.mem_cons_self (.refl _)
      · exact .els List.mem_cons_self (ih hb)

theorem within_freeChoice {arms : List (List IL.Stmt)} {arm : List IL.Stmt} (h : arm ∈ arms) :
    Within arm (freeChoice arms) :=
  within_cascade (b := (none, arm)) (List.mem_map_of_mem h)

theorem within_alternativesChoice {alts : List (IL.Expr × List IL.Stmt)} {otherwise : List IL.Stmt}
    {a : IL.Expr × List IL.Stmt} (h : a ∈ alts) :
    Within a.2 (alternativesChoice alts otherwise) := by
  have hmem : IL.Stmt.assume a.1 :: a.2 ∈ alts.map (fun a => .assume a.1 :: a.2) ++
      [.assume (IL.Expr.neg (.disj (alts.map (·.1)))) :: otherwise] :=
    List.mem_append_left _ (List.mem_map_of_mem h)
  have hin : Within a.2 (.assume a.1 :: a.2) := (Within.refl a.2).right [.assume a.1]
  exact hin.trans (within_freeChoice hmem)

/-! ## Statements that run -/

/-- The execution of a statement may come to another one. -/
inductive Source.Stmt.Runs (c : Context) : Source.Stmt → Source.Stmt → Prop
  | here {t} : Runs c t t
  | block {s body t u} (h : t ∈ body) (hu : Runs c t u) : Runs c (.block s body) u
  | thn {s g a b u} (hu : Runs c a u) : Runs c (.ifElse s g a b) u
  | els {s g a b u} (hu : Runs c b u) : Runs c (.ifElse s g a (some b)) u
  | alternative {s alts a u} (h : a ∈ alts) (hu : Runs c a.2 u) : Runs c (.altIf s alts) u
  | loop {s spec g b u} (hu : Runs c b u) : Runs c (.loop s spec g (some b)) u
  | loopAlternative {s spec alts b a u} (h : a ∈ alts) (hu : Runs c a.2 u) :
      Runs c (.altLoop s spec alts b) u
  | arm {s e arms dt args d k a u} (ht : e.typ = .datatype dt args) (hd : c.datatype dt = .ok d)
      (hk : k ∈ d.ctors) (hfind : arms.find? (·.1.ctor == k.name) = some a) (hu : Runs c a.2 u) :
      Runs c (.cases s e arms) u
  | hint {s first steps step t u} (h : (step, some t) ∈ steps) (hu : Runs c t u) :
      Runs c (.calc s first steps) u
  | proof {s d ens b u} (hu : Runs c b u) : Runs c (.forallProof s d ens b) u

section

variable {c : Context} {s s' : Progress} {b : Body} {v : View} {ss : List IL.Stmt}

theorem lowerStmts_mem {body : List Source.Stmt} (h : (b.lowerStmts v body).Emits c s () ss s')
    {t : Source.Stmt} (ht : t ∈ body) :
    ∃ s₁ ts s₂, (b.lowerStmt v t).Emits c s₁ () ts s₂ ∧ Within ts ss := by
  induction body generalizing s ss with
  | nil => simp at ht
  | cons a body ih =>
    unfold Body.lowerStmts at h
    obtain ⟨_, s₁, first, rest, hfirst, hrest, rfl⟩ := emits_bind.1 h
    rcases List.mem_cons.1 ht with rfl | ht
    · exact ⟨s, first, s₁, hfirst, (Within.refl _).left _⟩
    · obtain ⟨t₁, ts, t₂, hts, hin⟩ := ih hrest ht
      exact ⟨t₁, ts, t₂, hts, hin.right _⟩

theorem lowerAlternatives_mem {before : List IL.Stmt} {alts : List (Source.Expr × Source.Stmt)}
    {arms : List (IL.Expr × List IL.Stmt)}
    (h : (b.lowerAlternatives v before alts).Emits c s arms ss s')
    {a : Source.Expr × Source.Stmt} (ha : a ∈ alts) :
    ∃ s₁ ts s₂, (b.lowerStmt v a.2).Emits c s₁ () ts s₂ ∧ ∃ g, (g, before ++ ts) ∈ arms := by
  induction alts generalizing s s' arms ss with
  | nil => simp at ha
  | cons a' alts ih =>
    unfold Body.lowerAlternatives at h
    obtain ⟨g, -, h₁⟩ := emits_expr_bind.1 h
    obtain ⟨ts, s₁, _, _, hblock, h₂, rfl⟩ := emits_bind.1 h₁
    obtain ⟨hts, rfl⟩ := emits_block.1 hblock
    obtain ⟨arms', s₂, _, _, harms, h₃, rfl⟩ := emits_bind.1 h₂
    obtain ⟨rfl, -⟩ := emits_pure.1 h₃
    rcases List.mem_cons.1 ha with rfl | ha
    · exact ⟨_, ts, s₁, hts, g, by simp⟩
    · obtain ⟨t₁, us, t₂, hus, g', hmem⟩ := ih harms ha
      exact ⟨t₁, us, t₂, hus, g', by simp [hmem]⟩

theorem lowerSteps_mem {prev : Source.Expr}
    {steps : List ((CalcOp × Source.Expr) × Option Source.Stmt)}
    {checked : List (List IL.Stmt × IL.Expr)}
    (h : (b.lowerSteps v prev steps).Emits c s checked ss s') {step : CalcOp × Source.Expr}
    {t : Source.Stmt} (ht : (step, some t) ∈ steps) :
    ∃ s₁ ts s₂, (b.lowerStmt v t).Emits c s₁ () ts s₂ ∧ ∃ k ∈ checked, Within ts k.1 := by
  induction steps generalizing s s' prev checked ss with
  | nil => simp at ht
  | cons a steps ih =>
    obtain ⟨⟨op, line⟩, hint⟩ := a
    unfold Body.lowerSteps at h
    obtain ⟨arm, s₁, _, _, hblock, h₁, rfl⟩ := emits_bind.1 h
    obtain ⟨harm, rfl⟩ := emits_block.1 hblock
    obtain ⟨shown, -, h₂⟩ := emits_expr_bind.1 h₁
    obtain ⟨rest, s₂, _, _, hrest, h₃, rfl⟩ := emits_bind.1 h₂
    obtain ⟨rfl, -⟩ := emits_pure.1 h₃
    rcases List.mem_cons.1 ht with heq | ht
    · obtain ⟨rfl, rfl⟩ : (op, line) = step ∧ hint = some t := by simpa [eq_comm] using heq
      obtain ⟨_, -, harm₁⟩ := emits_expr_bind.1 harm
      obtain ⟨_, t₁, us₁, _, -, harm₂, rfl⟩ := emits_bind.1 harm₁
      obtain ⟨_, t₂, us₂, _, -, harm₃, rfl⟩ := emits_bind.1 harm₂
      obtain ⟨_, t₃, us₃, _, hhint, -, rfl⟩ := emits_bind.1 harm₃
      exact ⟨t₂, us₃, t₃, hhint, _, List.mem_cons_self,
        (((Within.refl us₃).left _).right us₂).right us₁⟩
    · obtain ⟨t₁, ts, t₂, hts, k, hk, hin⟩ := ih hrest ht
      exact ⟨t₁, ts, t₂, hts, k, by simp [hk], hin⟩

theorem enterView_frame {span : Span} {n : Nat} {mods : Option (List Source.Expr)} :
    Yields (fun w : View => ∃ frame, w = { v with frame }) (LoopFrame.enterView v span n mods) := by
  cases mods with
  | none => exact .pure ⟨v.frame, rfl⟩
  | some mods =>
    exact .bind fun _ => .bind fun _ => .bind fun _ => .bind fun _ => .bind fun _ => .bind fun _ =>
      .pure ⟨_, rfl⟩

/-- A loop has the view that it was entered with, up to its frame. -/
theorem enter_view {span : Span} {spec : LoopSpec} {guard : Option Source.Expr}
    {bodies : List Source.Stmt} {l : LoopFrame}
    (h : (LoopFrame.enter b v span spec guard bodies).Emits c s l ss s') :
    ∃ frame, l.view = { v with frame } := by
  unfold LoopFrame.enter at h
  obtain ⟨n, s₁, -, h₁⟩ := emits_decl_bind.1 h
  obtain ⟨preHeap, s₂, _, _, -, h₂, rfl⟩ := emits_bind.1 h₁
  obtain ⟨w, s₃, _, _, hw, h₃, rfl⟩ := emits_bind.1 h₂
  have hview := (Yields.bind fun _ => .bind fun _ => .bind fun _ => .bind fun _ => .bind fun _ =>
    .bind fun _ => .bind fun _ => .bind fun _ => .pure rfl :
      Yields (fun l : LoopFrame => l.view = w) _) h₃
  obtain ⟨frame, rfl⟩ := enterView_frame hw
  exact ⟨frame, hview⟩

/-- The code of a loop holds the code of its iteration. -/
theorem close_within {l : LoopFrame} {span : Span} {spec : LoopSpec}
    {iteration : BodyM (List MeasureValue)}
    (h : (l.close span spec iteration).Emits c s () ss s') :
    ∃ olds s₁ ts, iteration.Emits c s olds ts s₁ ∧ Within ts ss := by
  unfold LoopFrame.close at h
  obtain ⟨body, s₁, _, _, hblock, h₁, rfl⟩ := emits_bind.1 h
  obtain ⟨hbody, rfl⟩ := emits_block.1 hblock
  obtain ⟨olds, s₂, ts, us, hts, -, rfl⟩ := emits_bind.1 hbody
  refine ⟨olds, s₂, ts, hts, ?_⟩
  have hloop : Within ts [.loop none l.invariants (l.wellFormed ++ (ts ++ us))] :=
    .loop List.mem_cons_self (((Within.refl ts).left us).right _)
  dsimp only at h₁
  split at h₁
  · obtain ⟨rfl, -⟩ := emits_add.1 h₁
    exact hloop
  · obtain ⟨rfl, -⟩ := emits_add.1 h₁
    exact .block List.mem_cons_self hloop

theorem ifElse_emits {span : Span} {guard : Option Source.Expr} {thn : Source.Stmt}
    {els : Option Source.Stmt} (h : (b.lowerStmt v (.ifElse span guard thn els)).Emits c s () ss s') :
    ∃ g before a e s₁ s₂, (b.lowerStmt v thn).Emits c s₁ () a s₂ ∧
      (b.lowerStmt? v els).Emits c s₂ () e s' ∧ ss = before ++ [.ifElse g a e] := by
  have hbranches {g : Option IL.Expr} {s s' : Progress} {ss : List IL.Stmt}
      (h : (do
        let a ← BodyM.block (b.lowerStmt v thn)
        let e ← BodyM.block (b.lowerStmt? v els)
        BodyM.add [.ifElse g a e]).Emits c s () ss s') :
      ∃ a e s₂, (b.lowerStmt v thn).Emits c s () a s₂ ∧
        (b.lowerStmt? v els).Emits c s₂ () e s' ∧ ss = [.ifElse g a e] := by
    obtain ⟨a, s₁, _, _, hblock, h₁, rfl⟩ := emits_bind.1 h
    obtain ⟨ha, rfl⟩ := emits_block.1 hblock
    obtain ⟨e, s₂, _, _, hblock', h₂, rfl⟩ := emits_bind.1 h₁
    obtain ⟨he, rfl⟩ := emits_block.1 hblock'
    obtain ⟨rfl, rfl⟩ := emits_add.1 h₂
    exact ⟨a, e, s₁, ha, he, rfl⟩
  unfold Body.lowerStmt at h
  simp only [pure_bind] at h
  cases guard with
  | none =>
    obtain ⟨a, e, s₂, ha, he, rfl⟩ := hbranches h
    exact ⟨none, [], a, e, s, s₂, ha, he, rfl⟩
  | some guard =>
    obtain ⟨x, s₁, before, _, -, h₁, rfl⟩ := emits_bind.1 h
    obtain ⟨a, e, s₂, ha, he, rfl⟩ := hbranches h₁
    exact ⟨some x, before, a, e, s₁, s₂, ha, he, rfl⟩

/-- The code of a statement holds the code of every statement that it runs. -/
theorem lowerStmt_runs {t u : Source.Stmt} (hu : t.Runs c u)
    (h : (b.lowerStmt v t).Emits c s () ss s') :
    ∃ frame s₁ ts s₂, (b.lowerStmt { v with frame } u).Emits c s₁ () ts s₂ ∧ Within ts ss := by
  induction hu generalizing v s s' ss with
  | here => exact ⟨v.frame, s, ss, s', h, .refl _⟩
  | block ht _ ih =>
    unfold Body.lowerStmt at h
    obtain ⟨s₁, ts, s₂, hts, hin⟩ := lowerStmts_mem h ht
    obtain ⟨frame, t₁, us, t₂, hus, hin'⟩ := ih hts
    exact ⟨frame, t₁, us, t₂, hus, hin'.trans hin⟩
  | thn _ ih =>
    obtain ⟨g, us₁, a, els, s₁, s₂, hthn, -, rfl⟩ := ifElse_emits h
    obtain ⟨frame, t₁, us, t₂, hus, hin⟩ := ih hthn
    exact ⟨frame, t₁, us, t₂, hus, (Within.thn List.mem_cons_self hin).right us₁⟩
  | els _ ih =>
    obtain ⟨g, us₁, a, els, s₁, s₂, -, hels, rfl⟩ := ifElse_emits h
    obtain ⟨frame, t₁, us, t₂, hus, hin⟩ := ih hels
    exact ⟨frame, t₁, us, t₂, hus, (Within.els List.mem_cons_self hin).right us₁⟩
  | alternative ha _ ih =>
    unfold Body.lowerStmt at h
    obtain ⟨_, _, us₁, _, -, h₁, rfl⟩ := emits_bind.1 h
    obtain ⟨guards, -, h₂⟩ := emits_expr_bind.1 h₁
    obtain ⟨_, _, us₂, _, -, h₃, rfl⟩ := emits_bind.1 h₂
    obtain ⟨arms, _, us₃, _, harms, h₄, rfl⟩ := emits_bind.1 h₃
    obtain ⟨rfl, -⟩ := emits_add.1 h₄
    obtain ⟨s₁, ts, s₂, hts, g, hg⟩ := lowerAlternatives_mem harms ha
    obtain ⟨frame, t₁, us, t₂, hus, hin⟩ := ih hts
    exact ⟨frame, t₁, us, t₂, hus, (((hin.trans (within_alternativesChoice hg)).right us₃).right
      us₂).right us₁⟩
  | loop _ ih =>
    unfold Body.lowerStmt at h
    obtain ⟨l, s₁, us₁, _, hl, h₁, rfl⟩ := emits_bind.1 h
    obtain ⟨frame, hview⟩ := enter_view hl
    obtain ⟨olds, s₂, ts, hts, hin⟩ := close_within h₁
    obtain ⟨_, _, us₂, _, -, h₂, rfl⟩ := emits_bind.1 hts
    obtain ⟨_, _, us₃, _, -, h₃, rfl⟩ := emits_bind.1 h₂
    obtain ⟨_, _, body, _, hbody, -, rfl⟩ := emits_bind.1 h₃
    rw [hview] at hbody
    obtain ⟨frame', t₁, us, t₂, hus, hin'⟩ := ih hbody
    exact ⟨frame', t₁, us, t₂, hus,
      ((((hin'.left _).right us₃).right us₂).trans hin).right us₁⟩
  | loopAlternative ha _ ih =>
    unfold Body.lowerStmt at h
    obtain ⟨l, s₁, us₁, _, hl, h₁, rfl⟩ := emits_bind.1 h
    obtain ⟨frame, hview⟩ := enter_view hl
    obtain ⟨olds, s₂, ts, hts, hin⟩ := close_within h₁
    obtain ⟨_, _, us₂, _, -, h₂, rfl⟩ := emits_bind.1 hts
    obtain ⟨p, _, us₃, _, -, h₃, rfl⟩ := emits_bind.1 h₂
    obtain ⟨arms, _, us₄, _, harms, h₄, rfl⟩ := emits_bind.1 h₃
    obtain ⟨_, _, us₅, _, hchoice, -, rfl⟩ := emits_bind.1 h₄
    obtain ⟨rfl, -⟩ := emits_add.1 hchoice
    obtain ⟨s₁, ts, s₂, hts', g, hg⟩ := lowerAlternatives_mem harms ha
    rw [hview] at hts'
    obtain ⟨frame', t₁, us, t₂, hus, hin'⟩ := ih hts'
    exact ⟨frame', t₁, us, t₂, hus, ((((((hin'.right p.2).trans
      (within_alternativesChoice hg)).left _).right us₄).right us₃).right us₂).trans hin |>.right us₁⟩
  | @arm _ _ _ dt _ d _ _ _ ht hd hk hfind _ ih =>
    unfold Body.lowerStmt at h
    obtain ⟨_, _, us₁, _, -, h₁, rfl⟩ := emits_bind.1 h
    obtain ⟨dt', hdt, h₂⟩ := emits_expr_bind.1 h₁
    obtain rfl : dt' = dt := by simpa [ht, matchedDatatype] using hdt
    obtain ⟨d', hd', h₃⟩ := emits_expr_bind.1 h₂
    obtain rfl : d' = d := Except.ok.inj ((ExprM.returns_datatype.1 hd').symm.trans hd)
    obtain ⟨x, -, h₄⟩ := emits_expr_bind.1 h₃
    obtain ⟨scrutinee, _, us₂, _, -, h₅, rfl⟩ := emits_bind.1 h₄
    obtain ⟨branches, _, us₃, _, hbranches, h₆, rfl⟩ := emits_bind.1 h₅
    obtain ⟨rfl, -⟩ := emits_add.1 h₆
    obtain ⟨before, after, s₁, branch, ts, s₂, hts, hbranch, rfl⟩ := hbranches.mapM_mem hk
    rw [Body.lowerArms_eq, List.find?_map] at hts
    simp only [Function.comp_def, hfind, Option.map_some] at hts
    obtain ⟨code, _, _, _, hblock, hpure, rfl⟩ := emits_bind.1 hts
    obtain ⟨rfl, -⟩ := emits_pure.1 hpure
    obtain ⟨hcode, rfl⟩ := emits_block.1 hblock
    obtain ⟨_, _, us₄, body, -, hbody, rfl⟩ := emits_bind.1 hcode
    obtain ⟨frame, t₁, us, t₂, hus, hin⟩ := ih hbody
    exact ⟨frame, t₁, us, t₂, hus,
      ((((hin.right us₄).trans (within_cascade hbranch)).right _).right us₂).right us₁⟩
  | hint ht _ ih =>
    unfold Body.lowerStmt at h
    obtain ⟨opening, _, us₁, _, -, h₁, rfl⟩ := emits_bind.1 h
    obtain ⟨checked, _, us₂, _, hchecked, h₂, rfl⟩ := emits_bind.1 h₁
    obtain ⟨calls, -, h₃⟩ := emits_expr_bind.1 h₂
    obtain ⟨rfl, -⟩ := emits_add.1 h₃
    obtain ⟨s₁, ts, s₂, hts, k, hk, hin⟩ := lowerSteps_mem hchecked ht
    obtain ⟨frame, t₁, us, t₂, hus, hin'⟩ := ih hts
    have harm : k.1 ++ [.assume .ff] ∈
        (opening :: checked.map (·.1)).map (fun arm => arm ++ [IL.Stmt.assume .ff]) :=
      List.mem_map_of_mem (List.mem_cons_of_mem opening (List.mem_map_of_mem hk))
    exact ⟨frame, t₁, us, t₂, hus, ((((hin'.trans hin).left _).trans
      (within_freeChoice (List.mem_append_left _ harm))).right us₂).right us₁⟩
  | proof _ ih =>
    unfold Body.lowerStmt forallChoice at h
    obtain ⟨checked, _, _, _, hblock, h₁, rfl⟩ := emits_bind.1 h
    obtain ⟨hchecked, rfl⟩ := emits_block.1 hblock
    obtain ⟨effect, _, us₁, _, -, h₂, rfl⟩ := emits_bind.1 h₁
    obtain ⟨rfl, -⟩ := emits_add.1 h₂
    obtain ⟨_, _, us₂, _, -, h₃, rfl⟩ := emits_bind.1 hchecked
    obtain ⟨_, _, ts, _, hts, -, rfl⟩ := emits_bind.1 h₃
    obtain ⟨frame, t₁, us, t₂, hus, hin⟩ := ih hts
    exact ⟨frame, t₁, us, t₂, hus, ((Within.thn List.mem_cons_self
      (((hin.left _).right us₂).left [.assume .ff])).right us₁).right []⟩

end

end ContractLowering
