import ContractLowering.Lowering.Split
import ContractLowering.Proofs.Lowering.Induction
import Mathlib

/-!
# Splitting is sound and loses nothing

`split_sound_lossless`: the parts of a goal that are checked imply the goal, and the goal implies
the parts that are free. The proof follows the splitter, which descends through connectives, lets
and quantifiers into the bodies of predicates it opens.

What a model has to satisfy is asked of it only where the splitter comes by. A `Site` is a goal on
its way with the values that variables have there; `Site.Step` says how it goes on, through a
guard only where the guard holds and below a binder for every value the binder may take. At the
sites that are reached, opened calls have to agree with their bodies and quantifiers that are
proved by induction have to be `Inducible`.
-/

namespace ContractLowering

open IL Source

/-- The variables on which a quantifier is proved by induction, if it is at all. -/
def selectedVars (induct : Bool) (attr : Induction) (binders : List Source.Binder)
    (es : List Source.Expr) : ExprM (List Source.Binder) :=
  if induct then inductionVars attr binders es else pure []

/-- A goal on the way of the splitter, with the values of variables there. -/
structure Site (M : Model) where
  values : M.Valuation
  height : Nat
  fuel : Nat
  induct : Bool
  goal : Source.Expr

namespace Site

variable {M : Model} {env : Env} {v : View} {old : M.Valuation}

/-- One step of the splitter into a goal. -/
inductive Step (env : Env) (v : View) (old : M.Valuation) : Site M → Site M → Prop where
  | left {ρ h f d i a b} : Step env v old ⟨ρ, h, f, d, .binary i .and a b⟩ ⟨ρ, h, f, d, a⟩
  | right {ρ h f d i a b} : Step env v old ⟨ρ, h, f, d, .binary i .and a b⟩ ⟨ρ, h, f, d, b⟩
  | conclusion {ρ h f d i a b hyp} (ha : (lowerExpr v a).Returns env hyp)
      (hhyp : Holds old ρ hyp) :
      Step env v old ⟨ρ, h, f, d, .binary i .implies a b⟩ ⟨ρ, h, f, d, b⟩
  | alternative {ρ h f d i a b hyp} (ha : (lowerExpr v a).Returns env hyp)
      (hhyp : ¬ Holds old ρ hyp) :
      Step env v old ⟨ρ, h, f, d, .binary i .or a b⟩ ⟨ρ, h, f, d, b⟩
  | thenBranch {ρ h f d i c a b test} (hc : (lowerExpr v c).Returns env test)
      (htest : Holds old ρ test) : Step env v old ⟨ρ, h, f, d, .ite i c a b⟩ ⟨ρ, h, f, d, a⟩
  | elseBranch {ρ h f d i c a b test} (hc : (lowerExpr v c).Returns env test)
      (htest : ¬ Holds old ρ test) : Step env v old ⟨ρ, h, f, d, .ite i c a b⟩ ⟨ρ, h, f, d, b⟩
  | letBody {ρ h f d i bs b vs} (hbs : (lowerBindings v bs).Returns env vs) :
      Step env v old ⟨ρ, h, f, d, .letIn i bs b⟩
        ⟨Model.bind (vs.map fun x => (x.1, x.2.eval old ρ)) ρ, h, f, d, b⟩
  | bodyAt {ρ σ h f d i bs r b ts attr w u}
      (hvars : (selectedVars d attr bs (b :: r.toList)).Returns env [])
      (hw : (bindersWhere v.heap bs).Returns env w) (hu : (lowerExpr? v r).Returns env u)
      (hσ : Model.Assigns (sortBinders bs) ρ σ) (hwhere : Holds old σ w)
      (hrange : ∀ a ∈ u, Holds old σ a) :
      Step env v old ⟨ρ, h, f, d, .quant i .all bs r b ts attr⟩ ⟨σ, h, f, d, b⟩
  | recursive {ρ h f d i g recv args callee body} (hg : env.context.function g = .ok callee)
      (hbody : (openedBody? callee recv args).Returns env (some body))
      (hrec : env.context.calls.isRecursive g = true) :
      Step env v old ⟨ρ, h + 1, f, d, .call i g recv args⟩
        ⟨ρ, h, openingBound env.context body, false, body⟩
  | opened {ρ h f d i g recv args callee body} (hg : env.context.function g = .ok callee)
      (hbody : (openedBody? callee recv args).Returns env (some body))
      (hrec : env.context.calls.isRecursive g = false) :
      Step env v old ⟨ρ, h + 1, f + 1, d, .call i g recv args⟩ ⟨ρ, h + 1, f, false, body⟩

/-- The sites that the splitter reaches. -/
abbrev Reaches (env : Env) (v : View) (old : M.Valuation) : Site M → Site M → Prop :=
  Relation.ReflTransGen (Step env v old)

/-- That canCall holds of a call and that it equals the body it is replaced by. -/
structure Agrees (env : Env) (v : View) (old ρ : M.Valuation) (call : Source.Expr) (g : Path)
    (recv : Option Source.Expr) (args : List Source.Expr) (body : Source.Expr) : Prop where
  canCall : ∀ {es}, (lowerCallArgs v g recv args).Returns env es →
    Holds old ρ (.app (Naming.layered g .canCall) es)
  body : ∀ {a a'}, (lowerExpr v call).Returns env a → (lowerExpr v body).Returns env a' →
    a.eval old ρ = a'.eval old ρ

/-- What is asked at a site: the branches of a conditional are formulas, an opened call agrees with
its body, and a quantifier that is proved by induction on variables the program did not name may
be proved so. -/
structure Ok (env : Env) (v : View) (old : M.Valuation) (c : Nat) (x : Site M) : Prop where
  branches : ∀ {i t a b}, x.goal = .ite i t a b → i.typ = .bool ∧ a.typ = .bool ∧ b.typ = .bool
  agrees : ∀ {i g recv args callee body}, x.goal = .call i g recv args → 0 < x.height →
    env.context.function g = .ok callee →
    (openedBody? callee recv args).Returns env (some body) →
    Agrees env v old x.values x.goal g recv args body
  unnamed : ∀ {i q bs r b ts xs}, x.induct = true → x.goal ≠ .quant i q bs r b ts (.vars xs)
  inducible : ∀ {i bs r b ts attr vars}, x.goal = .quant i .all bs r b ts attr →
    (selectedVars x.induct attr bs (b :: r.toList)).Returns env vars → vars ≠ [] →
    Inducible env v c bs r b

end Site

/-- The parts to prove imply a formula, and it implies the parts to assume. -/
structure PartsOf {M : Model} (old ρ : M.Valuation) (parts : List GoalPart) (g : IL.Expr) :
    Prop where
  sound : (∀ p ∈ parts, p.kind ≠ .free → Holds old ρ p.expr) → Holds old ρ g
  lossless : Holds old ρ g → ∀ p ∈ parts, p.kind ≠ .checked → Holds old ρ p.expr

namespace PartsOf

variable {M : Model} {old ρ : M.Valuation} {parts parts' : List GoalPart} {g g' : IL.Expr}

/-- A goal that is not split. -/
theorem both (span : Span) : PartsOf old ρ [⟨.both, g, span⟩] g where
  sound h := h ⟨.both, g, span⟩ (by simp) (by simp)
  lossless h p hp _ := by
    obtain rfl := List.mem_singleton.1 hp
    exact h

theorem append (h : PartsOf old ρ parts g) (h' : PartsOf old ρ parts' g') :
    PartsOf old ρ (parts ++ parts') (.conj [g, g']) where
  sound hparts := by
    have hg := h.sound fun p hp => hparts p (by simp [hp])
    have hg' := h'.sound fun p hp => hparts p (by simp [hp])
    simp [hg, hg']
  lossless hg p hp := by
    have hboth : Holds old ρ g ∧ Holds old ρ g' := by simpa using hg
    rcases List.mem_append.1 hp with hp | hp
    · exact h.lossless hboth.1 p hp
    · exact h'.lossless hboth.2 p hp

/-- Parts under a condition or binder, which asks for them in some valuations. -/
theorem wrap {S : M.Valuation → Prop} {wrap : IL.Expr → IL.Expr}
    (hwrap : ∀ e, Holds old ρ (wrap e) ↔ ∀ σ, S σ → Holds old σ e)
    (hg : Holds old ρ g' ↔ ∀ σ, S σ → Holds old σ g) (h : ∀ σ, S σ → PartsOf old σ parts g) :
    PartsOf old ρ (GoalPart.wrapAll wrap parts) g' where
  sound hparts := by
    refine hg.2 fun σ hσ => (h σ hσ).sound fun p hp hkind => ?_
    exact (hwrap _).1 (hparts _ (List.mem_map_of_mem hp) hkind) σ hσ
  lossless hg' p hp hkind := by
    obtain ⟨q, hq, rfl⟩ := List.mem_map.1 hp
    exact (hwrap _).2 fun σ hσ => (h σ hσ).lossless (hg.1 hg' σ hσ) q hq hkind

/-- Parts under a condition. -/
theorem imp {c : IL.Expr} (h : Holds old ρ c → PartsOf old ρ parts g)
    (hg : Holds old ρ g' ↔ (Holds old ρ c → Holds old ρ g)) :
    PartsOf old ρ (GoalPart.wrapAll (.imp c) parts) g' :=
  wrap (S := fun σ => σ = ρ ∧ Holds old ρ c) (fun e => by simp) (by simpa using hg)
    (by rintro σ ⟨rfl, hc⟩; exact h hc)

/-- An opened call: what is to be proved of its body, and the call and the body to assume. -/
theorem atCall {canCall : IL.Expr} {span : Span} (h : PartsOf old ρ parts g)
    (hcall : Holds old ρ g' ↔ Holds old ρ g) :
    PartsOf old ρ ([⟨.free, g', span⟩, ⟨.free, .imp canCall g, span⟩] ++ GoalPart.atCall span parts)
      g' where
  sound hparts := by
    refine hcall.2 (h.sound fun p hp hkind => ?_)
    have hchecked : p.kind.isChecked = true := by
      cases hk : p.kind with
      | free => exact absurd hk hkind
      | checked => rfl
      | both => rfl
    refine hparts ⟨.checked, p.expr, span⟩ (List.mem_append_right _ ?_) (by simp)
    exact List.mem_map.2 ⟨p, List.mem_filter.2 ⟨hp, hchecked⟩, rfl⟩
  lossless hg p hp hkind := by
    rcases List.mem_append.1 hp with hp | hp
    · simp only [List.mem_cons, List.not_mem_nil, or_false] at hp
      rcases hp with rfl | rfl
      · exact hg
      · exact (holds_imp _ _).2 fun _ => hcall.1 hg
    · obtain ⟨q, _, rfl⟩ := List.mem_map.1 hp
      exact absurd rfl hkind

/-- A goal proved by induction and assumed as it is. -/
theorem obligations {obs : List IL.Expr} {span : Span}
    (h : (∀ o ∈ obs, Holds old ρ o) → Holds old ρ g) :
    PartsOf old ρ (obs.map (⟨.checked, ·, span⟩) ++ [⟨.free, g, span⟩]) g where
  sound hparts := h fun o ho =>
    hparts ⟨.checked, o, span⟩ (List.mem_append_left _ (List.mem_map.2 ⟨o, ho, rfl⟩)) (by simp)
  lossless hg p hp hkind := by
    rcases List.mem_append.1 hp with hp | hp
    · obtain ⟨o, _, rfl⟩ := List.mem_map.1 hp
      exact absurd rfl hkind
    · obtain rfl := List.mem_singleton.1 hp
      exact hg

end PartsOf

/-! ## Steps in later states -/

section

variable {v : View} {c : Context} {s₀ s s' : Progress}

theorem DeclM.Runs.lower {α : Type} {x : ExprM α} {a : α} (hs : s₀.Later c s)
    (h : (DeclM.ofExpr x).Runs c s a s') (hx : x.Stable) :
    x.Returns (s₀.env c) a ∧ s₀.Later c s' := by
  obtain ⟨hr, hlater⟩ := h.ofExpr hx
  exact ⟨(hx.returns hs.same).1 hr, hs.trans hlater⟩

theorem Reserved.same {env env' : Env} (h : env.Same env') {x : String}
    (hx : Reserved env' v x) : Reserved env v x := by
  cases hx with
  | const h => exact .const h
  | cls p => exact .cls p
  | field hf =>
    rw [h.context] at hf
    rw [h.handle _ hf]
    exact .field hf
  | this => exact .this
  | heap h => exact .heap h
  | oldHeap h => exact .oldHeap h
  | generated h => exact .generated h

/-- A quantifier may still be proved by induction when more numbers have been given out. -/
theorem Inducible.later {bs : List Source.Binder} {r : Option Source.Expr} {b : Source.Expr}
    (hs : s₀.Later c s) (h : Inducible (s₀.env c) v s₀.decl.counter bs r b) :
    Inducible (s.env c) v s.decl.counter bs r b where
  distinct := h.distinct
  settled x hx := (h.settled x hx).mono hs.counter
  binder x hx hr := h.binder x hx (hr.same hs.same)
  copy x hx n hn hr := h.copy x hx n (Nat.lt_of_le_of_lt hs.counter hn) (hr.same hs.same)
  heap x hx := (h.heap x hx).mono hs.counter
  oldHeap x hx := (h.oldHeap x hx).mono hs.counter
  typed e he := Expr.Scoped.mono (fun _ hx => hx.mono hs.counter) e (h.typed e he)
  free e he x hx := (h.free e he x hx).mono hs.counter

theorem inductionVars_stable (attr : Induction) (bs : List Source.Binder)
    (es : List Source.Expr) : (inductionVars attr bs es).Stable :=
  inductionVars_has (T := .stable) attr bs es

theorem selectedVars_stable (induct : Bool) (attr : Induction) (bs : List Source.Binder)
    (es : List Source.Expr) : (selectedVars induct attr bs es).Stable := by
  unfold selectedVars
  split
  · exact inductionVars_stable attr bs es
  · exact .pure _

theorem openedBody?_stable (f : Function) (recv : Option Source.Expr) (args : List Source.Expr) :
    (openedBody? f recv args).Stable :=
  openedBody?_has (T := .stable) f recv args

theorem lowerCallArgs_stable (f : Path) (recv : Option Source.Expr) (args : List Source.Expr) :
    (lowerCallArgs v f recv args).Stable :=
  lowerCallArgs_has (T := .stable) v f recv args

end

/-! ## Following the splitter -/

section

variable {M : Model} {old : M.Valuation} {v : View} {c : Context} {s₀ s s' : Progress}
  {height fuel : Nat} {induct : Bool} {goal : Source.Expr} {parts : List GoalPart}

/-- What the splitter gives for a goal: its parts split the lowered goal wherever the sites that
are reached from it are in order. -/
def SplitsTo (old : M.Valuation) (v : View) (c : Context) (s₀ : Progress) (height fuel : Nat)
    (induct : Bool) (goal : Source.Expr) (parts : List GoalPart) (s' : Progress) : Prop :=
  s₀.Later c s' ∧ ∃ g, (lowerExpr v goal).Returns (s₀.env c) g ∧ ∀ ρ : M.Valuation,
    (∀ x, Site.Reaches (s₀.env c) v old ⟨ρ, height, fuel, induct, goal⟩ x →
      x.Ok (s₀.env c) v old s₀.decl.counter) → PartsOf old ρ parts g

/-- Sites that are reached after a step are reached. -/
theorem Site.Step.reaches {env : Env} {x y : Site M} (h : Site.Step env v old x y)
    {P : Site M → Prop} (hx : ∀ z, Site.Reaches env v old x z → P z) :
    ∀ z, Site.Reaches env v old y z → P z :=
  fun z hz => hx z (.head h hz)

/-- A goal that is not split. -/
theorem splitsTo_both (hs : s₀.Later c s) {span : Span}
    (hrun : (do return [⟨.both, ← lowerExpr v goal, span⟩] : DeclM (List GoalPart)).Runs c s
      parts s') : SplitsTo old v c s₀ height fuel induct goal parts s' := by
  simp only [DeclM.runs_bind, DeclM.runs_pure] at hrun
  obtain ⟨g, s₁, hg, rfl, rfl⟩ := hrun
  obtain ⟨hg, h₁⟩ := hg.lower hs (lowerExpr_stable goal v)
  exact ⟨h₁, g, hg, fun ρ _ => .both span⟩

theorem splitsTo_and {i : Info} {a b : Source.Expr} {ps qs : List GoalPart} {s₁ : Progress}
    (ha : SplitsTo old v c s₀ height fuel induct a ps s₁)
    (hb : SplitsTo old v c s₀ height fuel induct b qs s') :
    SplitsTo old v c s₀ height fuel induct (.binary i .and a b) (ps ++ qs) s' := by
  obtain ⟨-, x, hx, hps⟩ := ha
  obtain ⟨h', y, hy, hqs⟩ := hb
  refine ⟨h', .conj [x, y], ?_, fun ρ hok => .append ?_ ?_⟩
  · simp only [lowerExpr, ExprM.returns_bind]
    exact ⟨x, hx, y, hy, by simp [lowerBinary]⟩
  · exact hps ρ (Site.Step.left.reaches hok)
  · exact hqs ρ (Site.Step.right.reaches hok)

theorem splitsTo_implies {i : Info} {a b : Source.Expr} {x : IL.Expr}
    (ha : (lowerExpr v a).Returns (s₀.env c) x)
    (hb : SplitsTo old v c s₀ height fuel induct b parts s') :
    SplitsTo old v c s₀ height fuel induct (.binary i .implies a b)
      (GoalPart.wrapAll (.imp x) parts) s' := by
  obtain ⟨h', y, hy, hps⟩ := hb
  refine ⟨h', .imp x y, ?_, fun ρ hok => .imp (fun hx => ?_) (holds_imp x y)⟩
  · simp only [lowerExpr, ExprM.returns_bind]
    exact ⟨x, ha, y, hy, by simp [lowerBinary]⟩
  · exact hps ρ ((Site.Step.conclusion ha hx).reaches hok)

theorem splitsTo_or {i : Info} {a b : Source.Expr} {x : IL.Expr}
    (ha : (lowerExpr v a).Returns (s₀.env c) x)
    (hb : SplitsTo old v c s₀ height fuel induct b parts s') :
    SplitsTo old v c s₀ height fuel induct (.binary i .or a b)
      (GoalPart.wrapAll (.imp x.neg) parts) s' := by
  obtain ⟨h', y, hy, hps⟩ := hb
  refine ⟨h', .disj [x, y], ?_, fun ρ hok => .imp (g := y) (fun hx => ?_) ?_⟩
  · simp only [lowerExpr, ExprM.returns_bind]
    exact ⟨x, ha, y, hy, by simp [lowerBinary]⟩
  · exact hps ρ ((Site.Step.alternative ha ((holds_neg x).1 hx)).reaches hok)
  · rw [holds_disj, holds_neg, ← or_iff_not_imp_left]
    simp

theorem splitsTo_ite {i : Info} {t a b : Source.Expr} {test : IL.Expr} {ps qs : List GoalPart}
    {s₁ : Progress} (ht : (lowerExpr v t).Returns (s₀.env c) test)
    (ha : SplitsTo old v c s₀ height fuel induct a ps s₁)
    (hb : SplitsTo old v c s₀ height fuel induct b qs s') :
    SplitsTo old v c s₀ height fuel induct (.ite i t a b)
      (GoalPart.wrapAll (.imp test) ps ++ GoalPart.wrapAll (.imp test.neg) qs) s' := by
  obtain ⟨-, x, hx, hps⟩ := ha
  obtain ⟨h', y, hy, hqs⟩ := hb
  refine ⟨h', .cond test (Boxing.convert a.typ i.typ x) (Boxing.convert b.typ i.typ y), ?_,
    fun ρ hok => ?_⟩
  · simp only [lowerExpr, ExprM.returns_bind, ExprM.returns_pure]
    exact ⟨x, hx, y, hy, test, ht, rfl⟩
  · obtain ⟨hi, ha, hb⟩ := (hok _ .refl).branches rfl
    have hthen : PartsOf old ρ (GoalPart.wrapAll (.imp test) ps) (.imp test x) :=
      .imp (fun h => hps ρ ((Site.Step.thenBranch ht h).reaches hok)) (holds_imp test x)
    have helse : PartsOf old ρ (GoalPart.wrapAll (.imp test.neg) qs) (.imp test.neg y) :=
      .imp (fun h => hqs ρ ((Site.Step.elseBranch ht ((holds_neg test).1 h)).reaches hok))
        (holds_imp test.neg y)
    have hg : Holds old ρ (.cond test (Boxing.convert a.typ i.typ x)
        (Boxing.convert b.typ i.typ y)) ↔ Holds old ρ (.conj [.imp test x, .imp test.neg y]) := by
      simp [hi, ha, hb, Boxing.convert, Boxing.unboxTo, Boxing.boxTo, Typ.isBoxed, Typ.boxSort?]
    have hboth := hthen.append helse
    exact ⟨fun h => hg.2 (hboth.sound h), fun h => hboth.lossless (hg.1 h)⟩

theorem splitsTo_letIn {i : Info} {bs : List (String × Source.Expr)} {b : Source.Expr}
    {vs : List (String × IL.Expr)} (hbs : (lowerBindings v bs).Returns (s₀.env c) vs)
    (hb : SplitsTo old v c s₀ height fuel induct b parts s') :
    SplitsTo old v c s₀ height fuel induct (.letIn i bs b) (GoalPart.wrapAll (.lets vs) parts)
      s' := by
  obtain ⟨h', y, hy, hps⟩ := hb
  refine ⟨h', .lets vs y, ?_, fun ρ hok => ?_⟩
  · simp only [lowerExpr, ExprM.returns_bind, ExprM.returns_pure]
    exact ⟨vs, hbs, y, hy, rfl⟩
  · refine .wrap (g := y) (S := fun σ => σ = Model.bind (vs.map fun x => (x.1, x.2.eval old ρ)) ρ)
      (fun e => by simp) (by simp) ?_
    rintro σ rfl
    exact hps _ ((Site.Step.letBody hbs).reaches hok)

/-- A universal goal lowers to a formula that asks for its body at all values of the variables
that satisfy the where clauses and the range. -/
theorem returns_all (old : M.Valuation) {env : Env} (i : Info) {bs : List Source.Binder}
    {r : Option Source.Expr} {b : Source.Expr} {ts : List (List Source.Expr)} (attr : Induction)
    {w y : IL.Expr} {u : Option IL.Expr} {given : List Trigger}
    (hw : (bindersWhere v.heap bs).Returns env w) (hu : (lowerExpr? v r).Returns env u)
    (ht : (lowerTriggers v ts).Returns env given) (hy : (lowerExpr v b).Returns env y) :
    ∃ g, (lowerExpr v (.quant i .all bs r b ts attr)).Returns env g ∧
      ∀ ρ, Holds old ρ g ↔ ∀ σ, Model.Assigns (sortBinders bs) ρ σ → Holds old σ w →
        (∀ a ∈ u, Holds old σ a) → Holds old σ y := by
  obtain ⟨chosen, hchosen⟩ : ∃ chosen, (chosenTriggers v (bs.map (·.1)) ts
      (quantMatrix .all w u y)).Returns env chosen := by
    unfold chosenTriggers autoTriggers
    split
    · simp
    · exact ⟨given, ht⟩
  refine ⟨_, returns_lowerExpr_quant.2 ⟨w, hw, u, hu, y, hy, chosen, hchosen, rfl⟩, fun ρ => ?_⟩
  have hall : Holds old ρ (.all (sortBinders bs) chosen (.imp (.conj [w, u.getD .tt]) y)) ↔ _ :=
    holds_all _ _ _
  refine hall.trans (forall_congr' fun σ => imp_congr_right fun _ => ?_)
  cases u <;> simp [and_imp]

theorem splitsTo_all {i : Info} {bs : List Source.Binder} {r : Option Source.Expr}
    {b : Source.Expr} {ts : List (List Source.Expr)} {attr : Induction} {w : IL.Expr}
    {u : Option IL.Expr} {given : List Trigger}
    (hvars : (selectedVars induct attr bs (b :: r.toList)).Returns (s₀.env c) [])
    (hw : (bindersWhere v.heap bs).Returns (s₀.env c) w)
    (hu : (lowerExpr? v r).Returns (s₀.env c) u)
    (ht : (lowerTriggers v ts).Returns (s₀.env c) given) (chosen : IL.Expr → List Trigger)
    (hb : SplitsTo old v c s₀ height fuel induct b parts s') :
    SplitsTo old v c s₀ height fuel induct (.quant i .all bs r b ts attr)
      (GoalPart.wrapAll (fun p => .all (sortBinders bs) (chosen p)
        (.imp (.conj (w :: u.toList)) p)) parts) s' := by
  obtain ⟨h', y, hy, hps⟩ := hb
  obtain ⟨g, hg, hholds⟩ := returns_all old i attr hw hu ht hy
  refine ⟨h', g, hg, fun ρ hok => ?_⟩
  refine .wrap (g := y) (S := fun σ => Model.Assigns (sortBinders bs) ρ σ ∧ Holds old σ w ∧
    ∀ a ∈ u, Holds old σ a) (fun e => ?_) ?_ ?_
  · simp [and_imp]
  · rw [hholds]
    simp [and_imp]
  · rintro σ ⟨hσ, hwhere, hrange⟩
    exact hps σ ((Site.Step.bodyAt hvars hw hu hσ hwhere hrange).reaches hok)

/-- Variables that the program did not name are inductive. -/
theorem mem_selectedVars {env : Env} {attr : Induction} {bs vars : List Source.Binder}
    {es : List Source.Expr} (h : (selectedVars induct attr bs es).Returns env vars)
    (hattr : induct = true → ∀ xs, attr ≠ .vars xs) :
    ∀ b ∈ vars, b ∈ bs ∧ b.2.isInductive = true := by
  unfold selectedVars at h
  split at h
  · rename_i hinduct
    cases attr with
    | off => simp_all [inductionVars]
    | vars xs => exact absurd rfl (hattr hinduct xs)
    | default =>
      simp only [inductionVars, ExprM.returns_bind, ExprM.returns_pure] at h
      obtain ⟨_, _, found, _, rfl⟩ := h
      intro b hb
      simp only [List.mem_filter, Bool.and_eq_true] at hb
      exact ⟨hb.1, hb.2.1⟩
  · simp_all

theorem splitsTo_induct {i : Info} {bs vars : List Source.Binder} {r : Option Source.Expr}
    {b : Source.Expr} {ts : List (List Source.Expr)} {attr : Induction} {g : IL.Expr}
    {obs : List IL.Expr} {s₁ : Progress} (hM : M.Ranked) (hs : s₀.Later c s)
    (hvars : (selectedVars induct attr bs (b :: r.toList)).Returns (s₀.env c) vars)
    (hne : vars ≠ []) (hobs : (quantifierObligations v i.span bs vars r b).Runs c s obs s₁)
    (hg : (lowerExpr v (.quant i .all bs r b ts attr)).Returns (s₀.env c) g)
    (h' : s₀.Later c s') :
    SplitsTo old v c s₀ height fuel induct (.quant i .all bs r b ts attr)
      (obs.map (⟨.checked, ·, i.span⟩) ++ [⟨.free, g, i.span⟩]) s' := by
  refine ⟨h', g, hg, fun ρ hok => .obligations fun hhold => ?_⟩
  have hsite := hok _ .refl
  have hind := (hsite.inducible rfl hvars hne).later hs
  have hmem := mem_selectedVars hvars fun hd xs he => hsite.unnamed hd (by rw [he])
  obtain ⟨w, -, -, goal, hw, -, -, hgoal, -, hholds⟩ := holds_quantifier (M := M) hg
  have hw' := ((bindersWhere_stable v.heap bs).returns hs.same).2 hw
  have hgoal' := ((quantifierGoal_stable r b {}).returns hs.same).2 hgoal
  exact (hholds old ρ).2 (quantifierObligations_sound hM hind hmem hobs hhold hw' hgoal')

/-- A call whose body is split in its place. -/
theorem splitsTo_call {i : Info} {f : Path} {recv : Option Source.Expr} {args : List Source.Expr}
    {callee : Function} {body : Source.Expr} {call unfolded : IL.Expr} {values : List IL.Expr}
    {inner : List GoalPart} (hf : (s₀.env c).context.function f = .ok callee)
    (hbody : (openedBody? callee recv args).Returns (s₀.env c) (some body))
    (hcall : (lowerExpr v (.call i f recv args)).Returns (s₀.env c) call)
    (hunfolded : (lowerExpr v body).Returns (s₀.env c) unfolded) (h' : s₀.Later c s')
    (hinner : ∀ ρ : M.Valuation, (∀ x, Site.Reaches (s₀.env c) v old
      ⟨ρ, height + 1, fuel, induct, .call i f recv args⟩ x →
        x.Ok (s₀.env c) v old s₀.decl.counter) → PartsOf old ρ inner unfolded) :
    SplitsTo old v c s₀ (height + 1) fuel induct (.call i f recv args)
      ([⟨.free, call, i.span⟩, ⟨.free, .imp (.app (Naming.layered f .canCall) values) unfolded,
        i.span⟩] ++ GoalPart.atCall i.span inner) s' := by
  refine ⟨h', call, hcall, fun ρ hok => .atCall (hinner ρ hok) ?_⟩
  have hagrees := (hok _ .refl).agrees rfl (Nat.succ_pos height) hf hbody
  rw [Holds, Holds, hagrees.body hcall hunfolded]

/-- The splitter splits a goal, whatever was lowered before. -/
def Follows (old : M.Valuation) (v : View) (c : Context) (s₀ : Progress) (height fuel : Nat)
    (induct : Bool) (goal : Source.Expr) : Prop :=
  ∀ ⦃s s' : Progress⦄ ⦃parts : List GoalPart⦄, s₀.Later c s →
    (splitGoal v height fuel induct goal).Runs c s parts s' →
    SplitsTo old v c s₀ height fuel induct goal parts s'

theorem follows_call {i : Info} {f : Path} {recv : Option Source.Expr} {args : List Source.Expr}
    (hlower : ∀ lower, height = lower + 1 → ∀ fuel body, Follows old v c s₀ lower fuel false body)
    (hless : ∀ less, fuel = less + 1 → ∀ body, Follows old v c s₀ height less false body) :
    Follows old v c s₀ height fuel induct (.call i f recv args) := by
  intro s s' parts hs hrun
  rcases height with _ | lower
  · rw [splitGoal] at hrun
    exact splitsTo_both hs hrun
  rw [splitGoal] at hrun
  simp only [DeclM.runs_bind] at hrun
  obtain ⟨callee, s₁, hf, call, s₂, hcall, o, s₃, ho, hrun⟩ := hrun
  obtain ⟨hf, h₁⟩ := DeclM.Runs.lower (x := ExprM.function f) hs hf (.function f)
  obtain ⟨hcall, h₂⟩ := DeclM.Runs.lower (x := lowerExpr v _) h₁ hcall (lowerExpr_stable _ v)
  obtain ⟨ho, h₃⟩ := DeclM.Runs.lower (x := openedBody? callee recv args) h₂ ho
    (openedBody?_stable callee recv args)
  rw [ExprM.returns_function] at hf
  cases o with
  | none =>
    simp only [DeclM.runs_pure] at hrun
    obtain ⟨rfl, rfl⟩ := hrun
    exact ⟨h₃, call, hcall, fun ρ _ => .both i.span⟩
  | some body =>
    simp only [DeclM.runs_bind] at hrun
    obtain ⟨values, s₄, hvalues, unfolded, s₅, hunfolded, recursive, s₆, hrec, hrun⟩ := hrun
    obtain ⟨-, h₄⟩ := DeclM.Runs.lower (x := lowerCallArgs v f recv args) h₃ hvalues
      (lowerCallArgs_stable f recv args)
    obtain ⟨hunfolded, h₅⟩ := DeclM.Runs.lower (x := lowerExpr v body) h₄ hunfolded
      (lowerExpr_stable body v)
    obtain ⟨hrec, h₆⟩ := DeclM.Runs.lower (x := ExprM.isRecursive f) h₅ hrec (.isRecursive f)
    rw [ExprM.returns_isRecursive] at hrec
    split at hrun
    · rename_i hrecursive
      simp only [DeclM.runs_bind, DeclM.runs_pure, DeclM.runs_context] at hrun
      obtain ⟨d, s₇, ⟨hd, hs₇⟩, inner, s₈, hinner, rfl, rfl⟩ := hrun
      rw [hd, hs₇] at hinner
      obtain ⟨h₈, g, hg, hsplits⟩ := hlower lower rfl _ body h₆ hinner
      obtain rfl := hunfolded.unique hg
      exact splitsTo_call hf ho hcall hunfolded h₈ fun ρ hok =>
        hsplits ρ ((Site.Step.recursive hf ho (hrec.symm.trans hrecursive)).reaches hok)
    · rename_i hrecursive
      rcases fuel with _ | less
      · simp only [DeclM.runs_bind, DeclM.runs_pure] at hrun
        obtain ⟨_, _, ⟨rfl, rfl⟩, rfl, rfl⟩ := hrun
        exact splitsTo_call hf ho hcall hunfolded h₆ fun ρ _ => .both body.span
      · simp only [DeclM.runs_bind, DeclM.runs_pure] at hrun
        obtain ⟨inner, s₈, hinner, rfl, rfl⟩ := hrun
        obtain ⟨h₈, g, hg, hsplits⟩ := hless less rfl body h₆ hinner
        obtain rfl := hunfolded.unique hg
        have hrec : (s₀.env c).context.calls.isRecursive f = false := by
          simpa [hrec] using hrecursive
        exact splitsTo_call hf ho hcall hunfolded h₈ fun ρ hok =>
          hsplits ρ ((Site.Step.opened hf ho hrec).reaches hok)

/-- The splitter at a universal quantifier, with its lowerings made explicit. -/
theorem splitGoal_all {i : Info} {bs : List Source.Binder} {r : Option Source.Expr}
    {b : Source.Expr} {ts : List (List Source.Expr)} {attr : Induction} :
    splitGoal v height fuel induct (.quant i .all bs r b ts attr) = (do
      let w ← DeclM.ofExpr (bindersWhere v.heap bs)
      let u ← DeclM.ofExpr (lowerExpr? v r)
      let c ← DeclM.context
      let given ← DeclM.ofExpr (lowerTriggers v ts)
      let vars ← DeclM.ofExpr (selectedVars induct attr bs (b :: r.toList))
      if vars.isEmpty then
        let parts ← splitGoal v height fuel induct b
        return GoalPart.wrapAll (fun p => .all (sortBinders bs)
          (if c.options.autoTriggers && ts.isEmpty then
            Triggers.select (bs.map (·.1)) (.imp (.conj (w :: u.toList)) p) else given)
          (.imp (.conj (w :: u.toList)) p)) parts
      else
        let obs ← quantifierObligations v i.span bs vars r b
        let g ← DeclM.ofExpr (lowerExpr v (.quant i .all bs r b ts attr))
        return obs.map (⟨.checked, ·, i.span⟩) ++ [⟨.free, g, i.span⟩]) := by
  rw [splitGoal]
  cases induct <;> rfl

theorem follows_all (hM : M.Ranked) {i : Info} {bs : List Source.Binder}
    {r : Option Source.Expr} {b : Source.Expr} {ts : List (List Source.Expr)} {attr : Induction}
    (ihb : Follows old v c s₀ height fuel induct b) :
    Follows old v c s₀ height fuel induct (.quant i .all bs r b ts attr) := by
  intro s s' parts hs hrun
  rw [splitGoal_all] at hrun
  simp only [DeclM.runs_bind, DeclM.runs_context] at hrun
  obtain ⟨w, s₁, hw, u, s₂, hu, d, s₃, ⟨hd, hs₃⟩, given, s₄, ht, vars, s₅, hvars, hrun⟩ := hrun
  rw [hs₃] at ht
  obtain ⟨hw, h₁⟩ := hw.lower hs (bindersWhere_stable v.heap bs)
  obtain ⟨hu, h₂⟩ := hu.lower h₁ (lowerExpr?_stable v _)
  obtain ⟨ht, h₃⟩ := ht.lower h₂ (lowerTriggers_stable v _)
  obtain ⟨hvars, h₄⟩ := hvars.lower h₃ (selectedVars_stable induct attr bs _)
  split at hrun
  · rename_i hempty
    obtain rfl := List.isEmpty_iff.1 hempty
    simp only [DeclM.runs_bind, DeclM.runs_pure] at hrun
    obtain ⟨ps, s₆, hb, rfl, rfl⟩ := hrun
    exact splitsTo_all hvars hw hu ht _ (ihb h₄ hb)
  · rename_i hne
    simp only [DeclM.runs_bind, DeclM.runs_pure] at hrun
    obtain ⟨obs, s₆, hobs, g, s₇, hg, rfl, rfl⟩ := hrun
    have h₅ := h₄.trans (runs_quantifierObligations hobs).1
    obtain ⟨hg, h₆⟩ := hg.lower h₅ (lowerExpr_stable _ v)
    exact splitsTo_induct hM h₄ hvars (by simpa using hne) hobs hg h₆

/-- One level of openings: the goal is taken apart by its structure. -/
theorem follows_goal (hM : M.Ranked)
    (hlower : ∀ lower, height = lower + 1 → ∀ fuel body, Follows old v c s₀ lower fuel false body)
    (hless : ∀ less, fuel = less + 1 → ∀ body, Follows old v c s₀ height less false body)
    (goal : Source.Expr) : Follows old v c s₀ height fuel induct goal := by
  induction goal using Source.Expr.recData with
  | binary i op a b iha ihb =>
    intro s s' parts hs hrun
    cases op with
    | and =>
      rw [splitGoal] at hrun
      simp only [DeclM.runs_bind, DeclM.runs_pure] at hrun
      obtain ⟨ps, s₁, ha, qs, s₂, hb, rfl, rfl⟩ := hrun
      have hps := iha hs ha
      exact splitsTo_and hps (ihb hps.1 hb)
    | implies =>
      rw [splitGoal] at hrun
      simp only [DeclM.runs_bind, DeclM.runs_pure] at hrun
      obtain ⟨x, s₁, hx, ps, s₂, hb, rfl, rfl⟩ := hrun
      obtain ⟨hx, h₁⟩ := DeclM.Runs.lower hs hx (lowerExpr_stable a v)
      exact splitsTo_implies hx (ihb h₁ hb)
    | or =>
      rw [splitGoal] at hrun
      simp only [DeclM.runs_bind, DeclM.runs_pure] at hrun
      obtain ⟨x, s₁, hx, ps, s₂, hb, rfl, rfl⟩ := hrun
      obtain ⟨hx, h₁⟩ := DeclM.Runs.lower hs hx (lowerExpr_stable a v)
      exact splitsTo_or hx (ihb h₁ hb)
    | _ =>
      rw [splitGoal] at hrun
      · exact splitsTo_both hs hrun
      all_goals simp
  | ite i t a b iht iha ihb =>
    intro s s' parts hs hrun
    rw [splitGoal] at hrun
    simp only [DeclM.runs_bind, DeclM.runs_pure] at hrun
    obtain ⟨x, s₁, hx, ps, s₂, ha, qs, s₃, hb, rfl, rfl⟩ := hrun
    obtain ⟨hx, h₁⟩ := DeclM.Runs.lower hs hx (lowerExpr_stable t v)
    have hps := iha h₁ ha
    exact splitsTo_ite hx hps (ihb hps.1 hb)
  | letIn i bs b ihbs ihb =>
    intro s s' parts hs hrun
    rw [splitGoal] at hrun
    simp only [DeclM.runs_bind, DeclM.runs_pure] at hrun
    obtain ⟨x, s₁, hx, ps, s₂, hb, rfl, rfl⟩ := hrun
    obtain ⟨hx, h₁⟩ := DeclM.Runs.lower hs hx
      (lowerBindings_stable v _)
    exact splitsTo_letIn hx (ihb h₁ hb)
  | quant i q bs r b ts attr ihr ihb iht =>
    cases q with
    | all => exact follows_all hM ihb
    | ex =>
      intro s s' parts hs hrun
      rw [splitGoal] at hrun
      · exact splitsTo_both hs hrun
      all_goals simp
  | call i f recv args ihr ihargs => exact follows_call hlower hless
  | _ =>
    intro s s' parts hs hrun
    rw [splitGoal] at hrun
    · exact splitsTo_both hs hrun
    all_goals simp

/-- The splitter at any height: openings of recursive predicates lower the height, openings of
others the fuel. -/
theorem follows (hM : M.Ranked) (height fuel : Nat) (induct : Bool) (goal : Source.Expr) :
    Follows old v c s₀ height fuel induct goal := by
  induction height generalizing fuel induct goal with
  | zero =>
    induction fuel generalizing induct goal with
    | zero => exact follows_goal hM (by simp) (by simp) goal
    | succ less ihless =>
      refine follows_goal hM (by simp) ?_ goal
      rintro _ ⟨⟩ body
      exact ihless false body
  | succ lower ihlower =>
    have hlower : ∀ l, lower + 1 = l + 1 → ∀ fuel body, Follows old v c s₀ l fuel false body := by
      rintro _ ⟨⟩ fuel body
      exact ihlower fuel false body
    induction fuel generalizing induct goal with
    | zero => exact follows_goal hM hlower (by simp) goal
    | succ less ihless =>
      refine follows_goal hM hlower ?_ goal
      rintro _ ⟨⟩ body
      exact ihless false body

/-- After a goal is split, expressions lower as before. -/
theorem splitGoal_later (height fuel : Nat) (induct : Bool) (goal : Source.Expr)
    (h : (splitGoal v height fuel induct goal).Runs c s parts s') : s.Later c s' := by
  have lower {α : Type} {x : ExprM α} {a : α} {s s' : Progress}
      (h : (DeclM.ofExpr x).Runs c s a s') (hx : x.Stable) : s.Later c s' := (h.ofExpr hx).2
  have whole {e : Source.Expr} {a : IL.Expr} {s s' : Progress}
      (h : (DeclM.ofExpr (lowerExpr v e)).Runs c s a s') : s.Later c s' :=
    lower h (lowerExpr_stable e v)
  fun_induction splitGoal v height fuel induct goal generalizing s s' parts with
  | case1 height fuel induct i a b iha ihb =>
    simp only [DeclM.runs_bind, DeclM.runs_pure] at h
    obtain ⟨_, _, ha, _, _, hb, -, rfl⟩ := h
    exact (iha ha).trans (ihb hb)
  | case2 height fuel induct i a b ihb | case3 height fuel induct i a b ihb =>
    simp only [DeclM.runs_bind, DeclM.runs_pure] at h
    obtain ⟨_, _, ha, _, _, hb, -, rfl⟩ := h
    exact (whole ha).trans (ihb hb)
  | case4 height fuel induct i t a b iha ihb =>
    simp only [DeclM.runs_bind, DeclM.runs_pure] at h
    obtain ⟨_, _, ht, _, _, ha, _, _, hb, -, rfl⟩ := h
    exact ((whole ht).trans (iha ha)).trans (ihb hb)
  | case5 height fuel induct i bs body ih =>
    simp only [DeclM.runs_bind, DeclM.runs_pure] at h
    obtain ⟨_, _, hbs, _, _, hb, -, rfl⟩ := h
    exact (lower hbs (lowerBindings_stable v _)).trans (ih hb)
  | case6 height fuel induct i bs r body ts attr ih =>
    rw [← splitGoal, splitGoal_all] at h
    simp only [DeclM.runs_bind, DeclM.runs_context] at h
    obtain ⟨_, s₁, hw, _, s₂, hu, _, s₃, ⟨-, rfl⟩, _, s₄, ht, vars, s₅, hvars, h⟩ := h
    have h₅ : s.Later c s₅ := (((lower hw (bindersWhere_stable _ _)).trans
      (lower hu (lowerExpr?_stable v _))).trans
      (lower ht (lowerTriggers_stable v _))).trans
      (lower hvars (selectedVars_stable _ _ _ _))
    split at h
    · simp only [DeclM.runs_bind, DeclM.runs_pure] at h
      obtain ⟨_, _, hb, -, rfl⟩ := h
      exact h₅.trans (ih hb)
    · simp only [DeclM.runs_bind, DeclM.runs_pure] at h
      obtain ⟨_, _, hobs, _, _, hg, -, rfl⟩ := h
      exact (h₅.trans (runs_quantifierObligations hobs).1).trans (whole hg)
  | case7 | case9 =>
    simp only [DeclM.runs_bind, DeclM.runs_pure] at h
    obtain ⟨_, _, hg, -, rfl⟩ := h
    exact whole hg
  | case8 fuel induct i f receiver args low ihlower ihless =>
    simp only [DeclM.runs_bind] at h
    obtain ⟨callee, s₁, hf, _, s₂, hcall, o, s₃, ho, h⟩ := h
    have h₃ : s.Later c s₃ := ((lower hf (.function f)).trans (whole hcall)).trans
      (lower ho (openedBody?_stable callee receiver args))
    cases o with
    | none =>
      obtain ⟨-, rfl⟩ := DeclM.runs_pure.1 h
      exact h₃
    | some body =>
      simp only [DeclM.runs_bind] at h
      obtain ⟨_, s₄, hvalues, _, s₅, hunfolded, recursive, s₆, hrec, h⟩ := h
      have h₆ : s.Later c s₆ := ((h₃.trans (lower hvalues (lowerCallArgs_stable f receiver args))).trans
        (whole hunfolded)).trans (lower hrec (.isRecursive f))
      split at h
      · simp only [DeclM.runs_bind, DeclM.runs_pure, DeclM.runs_context] at h
        obtain ⟨d, _, ⟨rfl, rfl⟩, _, _, hinner, -, rfl⟩ := h
        exact h₆.trans (ihlower body d hinner)
      · cases fuel with
        | zero =>
          simp only [DeclM.runs_bind, DeclM.runs_pure] at h
          obtain ⟨_, _, ⟨-, rfl⟩, -, rfl⟩ := h
          exact h₆
        | succ less =>
          simp only [DeclM.runs_bind, DeclM.runs_pure] at h
          obtain ⟨_, _, hinner, -, rfl⟩ := h
          exact h₆.trans (ihless body hinner)

theorem runs_split : (split v goal induct).Runs c s parts s' ↔
    (splitGoal v c.options.splitHeight (openingBound c goal) induct goal).Runs c s parts s' := by
  simp only [split, DeclM.runs_bind, DeclM.runs_context]
  constructor
  · rintro ⟨d, s₁, ⟨rfl, rfl⟩, h⟩
    exact h
  · exact fun h => ⟨c, s, ⟨rfl, rfl⟩, h⟩

/-- Splitting is sound and loses nothing. If the parts to prove hold, so does the goal, and if the
goal holds, so do the parts to assume: at every height, with or without induction, in every ranked
model (every model of the prelude is one, `Prelude.ranked_of_prelude`) where the sites that the
splitter reaches are in order. -/
theorem split_sound_lossless {ρ : M.Valuation} (hM : M.Ranked)
    (hrun : (split v goal induct).Runs c s parts s')
    (hok : ∀ x, Site.Reaches (s.env c) v old
      ⟨ρ, c.options.splitHeight, openingBound c goal, induct, goal⟩ x →
        x.Ok (s.env c) v old s.decl.counter) :
    ∃ g, (lowerExpr v goal).Returns (s.env c) g ∧
      ((∀ p ∈ parts, p.kind ≠ .free → Holds old ρ p.expr) → Holds old ρ g) ∧
      (Holds old ρ g → ∀ p ∈ parts, p.kind ≠ .checked → Holds old ρ p.expr) := by
  obtain ⟨-, g, hg, hsplits⟩ := follows hM _ _ induct goal (.refl _ _) (runs_split.1 hrun)
  exact ⟨g, hg, (hsplits ρ hok).sound, (hsplits ρ hok).lossless⟩

end

/-! ## Goals proved by induction -/

/-- Induction is on any variable of a goal, and no triggers are selected. -/
def eagerContext : Context := { options := { induction := 0, autoTriggers := false } }

/-- The view of a body that may change the heap. -/
def entryView : View := { heap := .var "$Heap", oldHeap := .old "$Heap" }

namespace Nonneg

/-- Propositions and integers, with no datatypes or sequences to speak of. -/
def model : Model where
  Val := Prop ⊕ Int
  ofProp := .inl
  truth := fun a => a.elim id fun _ => False
  truth_ofProp := Iff.refl
  ofInt := .inr
  toInt := fun a => a.elim (fun _ => 0) id
  toInt_ofInt := Eq.refl
  carrier s a := match s with
    | .bool => ∃ p, a = .inl p
    | _ => ∃ n, a = .inr n
  carrier_bool _ := .rfl
  carrier_int _ := .rfl
  app _ _ := .inl False
  lam _ := .inr 0
  applyLam _ _ _ := .inr 0
  divZero _ := 0
  modZero _ := 0

theorem ranked : model.Ranked where
  rank_nonneg _ _ := Int.le_refl 0
  length_nonneg _ _ := Int.le_refl 0
  eq_of_equal _ _ _ _ h := h.elim

def zeros : model.Valuation := fun _ => .inr 0

/-- That every natural number is at least zero. -/
def body : Source.Expr := .mkRel default .le (.mkInt default 0) (.mkVar default "k" .nat)

def goal : Source.Expr := .quant ⟨default, .bool⟩ .all [("k", .nat)] none body [] .default

theorem not_reserved {x : String} (h : Reserved (Progress.env {} eagerContext) entryView x) :
    x.toList.head? ≠ some 'k' := by
  cases h with
  | const h =>
    simp only [preludeConstants, List.mem_cons, List.not_mem_nil, or_false] at h
    rcases h with rfl | rfl | rfl | rfl | rfl | rfl <;> decide
  | cls p => simp [Naming.cls]
  | field hf => cases hf
  | this => decide
  | heap h =>
    obtain rfl : x = "$Heap" := by simpa [entryView, Expr.names] using h
    decide
  | oldHeap h => simp [entryView, Expr.names] at h
  | generated h =>
    cases h with
    | box => decide
    | boxAt d => simp [WhereClause.boxVar, Naming.boxVar]
    | indexAt d => simp [WhereClause.indexVar, Naming.indexVar]

/-- Induction on a variable of this name is sound, whatever its type is. -/
theorem inducible_of {t : Typ} {range : Option Source.Expr} {body : Source.Expr}
    (htyped : ∀ e ∈ body :: range.toList, e.Scoped (Settled 0) (PatternFits eagerContext)
      (Typing.bind [("k", t)] fun _ => none))
    (hfree : ∀ e ∈ body :: range.toList, ∀ x ∈ e.freeVars, x = "k") :
    Inducible (Progress.env {} eagerContext) entryView 0 [("k", t)] range body where
  distinct := by simp
  settled := by
    intro b hb
    obtain rfl := List.mem_singleton.1 hb
    exact settled_of_notMem (x := "k") (by decide)
  binder := by
    intro b hb h
    obtain rfl := List.mem_singleton.1 hb
    exact not_reserved (x := "k") h rfl
  copy := by
    intro b hb n _ h
    obtain rfl := List.mem_singleton.1 hb
    exact not_reserved h (by simp [Naming.renamed])
  heap x hx := by
    obtain rfl : x = "$Heap" := by simpa [entryView, Expr.names] using hx
    exact settled_of_notMem (by decide)
  oldHeap x hx := by simp [entryView, Expr.names] at hx
  typed := htyped
  free e he x hx := by
    obtain rfl := hfree e he x hx
    exact settled_of_notMem (by decide)

theorem inducible :
    Inducible (Progress.env {} eagerContext) entryView 0 [("k", .nat)] none body := by
  refine inducible_of (fun e he => ?_) fun e he x hx => ?_
  · obtain rfl := List.mem_singleton.1 he
    simp [body, Source.Expr.mkRel, Source.Expr.mkInt, Source.Expr.mkVar, Source.Expr.Scoped]
  · obtain rfl := List.mem_singleton.1 he
    simpa [body, Source.Expr.mkRel, Source.Expr.mkInt, Source.Expr.mkVar,
      Source.Expr.freeVars] using hx

def obligation : IL.Expr :=
  .all [("k", .int)] [] (.imp (.conj [.le (.nat 0) (.var "k"),
    .all [("k%1", .int)] [] (.imp (.conj [.le (.nat 0) (.var "k%1"), .lt (.var "k%1") (.var "k")])
      (.le (.nat 0) (.var "k%1")))]) (.le (.nat 0) (.var "k")))

def lowered : IL.Expr :=
  .all [("k", .int)] [] (.imp (.le (.nat 0) (.var "k")) (.le (.nat 0) (.var "k")))

theorem runs : (split entryView goal true).Runs eagerContext {}
    [⟨.checked, obligation, default⟩, ⟨.free, lowered, default⟩] { decl := { counter := 1 } } := by
  rw [runs_split, goal, splitGoal_all]
  exact rfl

theorem ok (old ρ : model.Valuation) {height fuel : Nat} (x : Site model)
    (h : Site.Reaches (Progress.env {} eagerContext) entryView old
      ⟨ρ, height, fuel, true, goal⟩ x) :
    x.Ok (Progress.env {} eagerContext) entryView old 0 := by
  have hvars : (selectedVars true .default [("k", .nat)] [body]).Returns
      (Progress.env {} eagerContext) [("k", .nat)] := rfl
  rcases h.cases_head with rfl | ⟨y, hstep, -⟩
  · exact ⟨nofun, nofun, nofun, fun hgoal _ _ => by cases hgoal; exact inducible⟩
  · cases hstep with
    | bodyAt hnone => exact nomatch hvars.unique hnone

end Nonneg

/-- The obligation of a goal proved by induction on its variable implies the goal. -/
theorem split_sound_lossless_nonneg :
    ∃ parts s' g, (split entryView Nonneg.goal true).Runs eagerContext {} parts s' ∧
      (lowerExpr entryView Nonneg.goal).Returns (Progress.env {} eagerContext) g ∧
      Holds Nonneg.zeros Nonneg.zeros g := by
  obtain ⟨g, hg, hsound, -⟩ := split_sound_lossless Nonneg.ranked Nonneg.runs
    (Nonneg.ok Nonneg.zeros Nonneg.zeros)
  refine ⟨_, _, g, Nonneg.runs, hg, hsound ?_⟩
  intro p hp hkind
  simp only [List.mem_cons, List.not_mem_nil, or_false] at hp
  rcases hp with rfl | rfl
  · simp only [Nonneg.obligation, holds_all, holds_imp, holds_conj]
    exact fun σ _ h => h _ (by simp)
  · exact absurd rfl hkind

namespace HiddenNull

/-- A goal that fails at every number but zero, and whose variable `null` has the name of a
constant that its body refers to. -/
def body : Source.Expr :=
  .ite ⟨default, .bool⟩ (.mkRel default .eq (.mkVar default "n" .nat) (.mkInt default 0))
    (.mkRel default .eq (.mkVar default "null" .object) (.null ⟨default, .object⟩))
    (.bool ⟨default, .bool⟩ false)

def goal : Source.Expr :=
  .quant ⟨default, .bool⟩ .all [("n", .nat), ("null", .object)] none body [] .default

/-- The where clauses of the variables or of their copies. -/
def clauses (n x : String) : List IL.Expr :=
  [.le (.nat 0) (.var n), .disj [.eq (.var x) (.var "null"),
    .app "$Unbox.bool" [.app "read" [.var "$Heap", .var x, .var "alloc"]]]]

/-- The body at the variables or at their copies. -/
def bodyAt (n x : String) : IL.Expr :=
  .cond (.eq (.var n) (.nat 0)) (.eq (.var x) (.var "null")) .ff

/-- The induction hypothesis. The constant in its body is the variable of the goal. -/
def hypothesis : IL.Expr :=
  .all [("n%1", .int), ("null%1", Prelude.refSort)] []
    (.imp (.conj (clauses "n%1" "null%1" ++ [.lt (.var "n%1") (.var "n")]))
      (bodyAt "n%1" "null%1"))

def obligation : IL.Expr :=
  .all [("n", .int), ("null", Prelude.refSort)] []
    (.imp (.conj (clauses "n" "null" ++ [hypothesis])) (bodyAt "n" "null"))

def lowered : IL.Expr :=
  .all [("n", .int), ("null", Prelude.refSort)] []
    (.imp (.conj (clauses "n" "null")) (bodyAt "n" "null"))

theorem runs : (split entryView goal true).Runs eagerContext {}
    [⟨.checked, obligation, default⟩, ⟨.free, lowered, default⟩] { decl := { counter := 1 } } := by
  rw [runs_split, goal, splitGoal_all]
  exact rfl

variable {M : Model} {old ρ : M.Valuation}

theorem assigns (n x : String) (k : Int) {r : M.Val} (hr : M.carrier Prelude.refSort r) :
    Model.Assigns [(n, .int), (x, Prelude.refSort)] ρ
      (Function.update (Function.update ρ n (M.ofInt k)) x r) :=
  Model.assigns_cons.2 ⟨M.ofInt k, (M.carrier_int _).2 ⟨k, rfl⟩,
    Model.assigns_cons.2 ⟨r, hr, Model.assigns_nil.2 rfl⟩⟩

/-- An allocated reference other than the variable refutes the hypothesis at positive numbers. -/
theorem le_zero_of_hypothesis {n : Int} {r z : M.Val} (hr : M.carrier Prelude.refSort r)
    (halloc : M.truth (M.app "$Unbox.bool" [M.app "read" [ρ "$Heap", r, ρ "alloc"]]))
    (hne : r ≠ z)
    (h : Holds old (Function.update (Function.update ρ "n" (M.ofInt n)) "null" z) hypothesis) :
    n ≤ 0 := by
  by_contra hn
  have hat := (holds_imp _ _).1 ((holds_all _ _ _).1 h _ (assigns "n%1" "null%1" 0 hr))
  have heq : 0 < n → r = z := by
    simpa [clauses, bodyAt, holds_app, halloc] using hat
  exact hne (heq (by omega))

end HiddenNull

/-- Where a bound variable hides a constant, splitting is not sound: with two references that are
allocated, what is to be proved holds and the goal does not. -/
theorem split_unsound_of_hidden_null :
    ∃ parts s' g, (split entryView HiddenNull.goal true).Runs eagerContext {} parts s' ∧
      (lowerExpr entryView HiddenNull.goal).Returns (Progress.env {} eagerContext) g ∧
      ∀ (M : Model) (old ρ : M.Valuation) (a b : M.Val), a ≠ b →
        (∀ r ∈ [a, b], M.carrier Prelude.refSort r ∧
          M.truth (M.app "$Unbox.bool" [M.app "read" [ρ "$Heap", r, ρ "alloc"]])) →
        (∀ p ∈ parts, p.kind ≠ .free → Holds old ρ p.expr) ∧ ¬ Holds old ρ g := by
  refine ⟨_, _, HiddenNull.lowered, HiddenNull.runs, rfl, fun M old ρ a b hne hrefs => ⟨?_, ?_⟩⟩
  · intro p hp hkind
    simp only [List.mem_cons, List.not_mem_nil, or_false] at hp
    rcases hp with rfl | rfl
    · simp only [HiddenNull.obligation, holds_all, Model.assigns_cons, Model.assigns_nil]
      rintro _ ⟨k, hk, z, hz, rfl⟩
      obtain ⟨n, rfl⟩ := (M.carrier_int _).1 hk
      obtain ⟨r, hr, hrz⟩ : ∃ r ∈ [a, b], r ≠ z := by
        by_cases haz : a = z
        · exact ⟨b, by simp, fun hbz => hne (haz.trans hbz.symm)⟩
        · exact ⟨a, by simp, haz⟩
      suffices 0 ≤ n → Holds old (Function.update (Function.update ρ "n" (M.ofInt n)) "null" z)
          HiddenNull.hypothesis → M.ofInt n = M.ofInt 0 by
        simpa [HiddenNull.clauses, HiddenNull.bodyAt] using this
      intro hnonneg hih
      have hle := HiddenNull.le_zero_of_hypothesis (hrefs r hr).1 (hrefs r hr).2 hrz hih
      rw [Int.le_antisymm hle hnonneg]
    · exact absurd rfl hkind
  · intro hg
    have hat := (holds_all _ _ _).1 hg _ (HiddenNull.assigns "n" "null" 1 (hrefs a (by simp)).1)
    have hone : M.ofInt 1 = M.ofInt 0 := by
      simpa [HiddenNull.clauses, HiddenNull.bodyAt] using hat
    simpa using congrArg M.toInt hone

end ContractLowering
