import ContractLowering.Proofs.IL.Semantics
import ContractLowering.Proofs.Lowering.Evaluated
import Mathlib.Logic.Relation

/-!
# Where the parts of an expression are evaluated

A `Point` is an expression in a view and in a state. `Part` says which points evaluating an
expression leads to next: an operand in the same state, a second operand where the first one lets
it be evaluated, the body of a quantifier at all values of its variables, the match case of a
constructor. `Visits` is its closure.

Frames are this relation in another form: a formula under frames holds if it holds in every state
that the frames reach (`Frame.holds_wrapAll`). So what is asserted for the definedness of an
expression holds exactly if the obligations of every operation hold at the points where it is
evaluated, of which one direction is shown (`Checked.part`, `Checked.obligations`).
-/

namespace ContractLowering

open IL Source

variable {M : Model} {old ρ σ σ' : M.Valuation} {env : Env} {limits : Limits}

/-! ## States below frames -/

namespace Frame

/-- A frame leads from one state to another. -/
def Enters (old : M.Valuation) (frame : Frame) (σ σ' : M.Valuation) : Prop :=
  match frame with
  | .guard cond => Holds old σ cond ∧ σ' = σ
  | .bind bindings => σ' = Model.bind (bindings.map fun b => (b.1, b.2.eval old σ)) σ
  | .forAll binders wheres => Model.Assigns binders σ σ' ∧ Holds old σ' wheres

/-- Frames, of which the innermost comes first, lead from one state to another. -/
def Reached (old : M.Valuation) : List Frame → M.Valuation → M.Valuation → Prop
  | [], ρ, σ => σ = ρ
  | frame :: frames, ρ, σ => ∃ τ, Reached old frames ρ τ ∧ frame.Enters old τ σ

theorem holds_wrap (auto : Bool) (frame : Frame) (e : IL.Expr) :
    Holds old σ (frame.wrap auto e) ↔ ∀ σ', frame.Enters old σ σ' → Holds old σ' e := by
  cases frame with
  | guard cond => simp [wrap, Enters]
  | bind bindings =>
    simp only [wrap, Enters, forall_eq]
    split
    · rename_i htrue
      simp [Expr.isTrue_iff.1 htrue]
    · rw [holds_lets]
  | forAll binders wheres =>
    simp only [wrap, Enters, and_imp]
    split
    · rename_i htrue
      simp [Expr.isTrue_iff.1 htrue]
    · simp only [holds_all, holds_imp]

/-- A formula under frames holds if it holds wherever the frames lead. -/
theorem holds_wrapAll (auto : Bool) (frames : List Frame) (e : IL.Expr) :
    Holds old ρ (wrapAll auto frames e) ↔ ∀ σ, Reached old frames ρ σ → Holds old σ e := by
  induction frames generalizing e with
  | nil => simp [Reached]
  | cons frame frames ih =>
    rw [wrapAll_cons, ih]
    simp only [holds_wrap, Reached, forall_exists_index, and_imp]
    exact ⟨fun h σ τ hτ hσ => h τ hτ σ hσ, fun h τ hτ σ hσ => h σ τ hτ hσ⟩

end Frame

/-! ## Points -/

/-- The variables that an expression binds for all of their values, its range if it has one, and
what is evaluated where the range holds. -/
def Source.Expr.bound? :
    Source.Expr → Option (List Source.Binder × Option Source.Expr × Option Source.Expr)
  | .quant _ _ binders range body _ _ => some (binders, range, some body)
  | .setComp _ binders range term => some (binders, some range, term)
  | .mapComp _ binder range term => some ([binder], some range, some term)
  | _ => none

/-- An expression in a view and in a state. -/
structure Point (M : Model) where
  view : View
  expr : Source.Expr
  state : M.Valuation

/-- An expression is lowered to a formula that holds in a state. -/
def Succeeds (env : Env) (old : M.Valuation) (v : View) (σ : M.Valuation) (e : Source.Expr) :
    Prop :=
  ∃ x, (lowerExpr v e).Returns env x ∧ Holds old σ x

/-- Bound variables get values of their types. -/
def Binds (env : Env) (old : M.Valuation) (v : View) (binders : List Source.Binder)
    (σ σ' : M.Valuation) : Prop :=
  ∃ wheres, (bindersWhere v.heap binders).Returns env wheres ∧
    Model.Assigns (sortBinders binders) σ σ' ∧ Holds old σ' wheres

/-- Evaluating an expression leads to a part of it. -/
inductive Part (env : Env) (old : M.Valuation) : Point M → Point M → Prop where
  | operand {v e a σ} (h : a ∈ e.operands) : Part env old ⟨v, e, σ⟩ ⟨v, a, σ⟩
  | old {v i e σ} : Part env old ⟨v, .old i e, σ⟩ ⟨v.old, e, σ⟩
  | second {v i op a b guard x σ} (hop : guardOfFirst? op = some guard)
      (hx : (lowerExpr v a).Returns env x) (hguard : Holds old σ (guard x)) :
      Part env old ⟨v, .binary i op a b, σ⟩ ⟨v, b, σ⟩
  | range {v e binders r body σ σ'} (he : e.bound? = some (binders, some r, body))
      (hσ : Binds env old v binders σ σ') : Part env old ⟨v, e, σ⟩ ⟨v, r, σ'⟩
  | body {v e binders range b σ σ'} (he : e.bound? = some (binders, range, some b))
      (hσ : Binds env old v binders σ σ') (hrange : ∀ r ∈ range, Succeeds env old v σ' r) :
      Part env old ⟨v, e, σ⟩ ⟨v, b, σ'⟩
  | letBody {v i bindings b values σ} (hvalues : (lowerBindings v bindings).Returns env values) :
      Part env old ⟨v, .letIn i bindings b, σ⟩
        ⟨v, b, Model.bind (values.map fun p => (p.1, p.2.eval old σ)) σ⟩
  | thn {v i c a b x σ} (hx : (lowerExpr v c).Returns env x) (hholds : Holds old σ x) :
      Part env old ⟨v, .ite i c a b, σ⟩ ⟨v, a, σ⟩
  | els {v i c a b x σ} (hx : (lowerExpr v c).Returns env x) (hfails : ¬ Holds old σ x) :
      Part env old ⟨v, .ite i c a b, σ⟩ ⟨v, b, σ⟩
  | arm {v i e arms dt d s c p bindings σ} (hdt : (matchedDatatype e.typ).Returns env dt)
      (hd : env.context.datatype dt = .ok d) (hs : (lowerExpr v e).Returns env s)
      (hc : c ∈ d.ctors) (hp : arms.find? (·.1.ctor == c.name) = some p)
      (htest : Holds old σ (.app (Naming.isCtor dt c.name) [s]))
      (hbindings : (caseBindings d dt p.1 s).Returns env bindings) :
      Part env old ⟨v, .cases i e arms, σ⟩
        ⟨v, p.2, Model.bind (bindings.map fun b => (b.1, b.2.eval old σ)) σ⟩

/-- Evaluating an expression leads to a part of it, however deep. -/
abbrev Visits (env : Env) (old : M.Valuation) : Point M → Point M → Prop :=
  Relation.ReflTransGen (Part env old)

/-! ## Checks of parts -/

/-- Statements contain what a computation asserts. -/
def Includes (env : Env) (ss : List IL.Stmt) (x : ExprM (List IL.Stmt)) : Prop :=
  ∃ ss', x.Returns env ss' ∧ ∀ c ∈ IL.Stmt.asserted ss', c ∈ IL.Stmt.asserted ss

section

variable {v : View} {frames : List Frame} {ss : List IL.Stmt} {e a : Source.Expr}

theorem Includes.refl {x : ExprM (List IL.Stmt)} (h : x.Returns env ss) : Includes env ss x :=
  ⟨ss, h, fun _ hc => hc⟩

theorem Includes.left {x : ExprM (List IL.Stmt)} (h : Includes env ss x) (ss' : List IL.Stmt) :
    Includes env (ss ++ ss') x := by
  obtain ⟨ts, hx, hts⟩ := h
  refine ⟨ts, hx, fun c hc => ?_⟩
  rw [IL.Stmt.asserted_append]
  exact List.mem_append_left _ (hts c hc)

theorem Includes.right {x : ExprM (List IL.Stmt)} (h : Includes env ss x) (ss' : List IL.Stmt) :
    Includes env (ss' ++ ss) x := by
  obtain ⟨ts, hx, hts⟩ := h
  refine ⟨ts, hx, fun c hc => ?_⟩
  rw [IL.Stmt.asserted_append]
  exact List.mem_append_right _ (hts c hc)

/-- The checks of an expression include those of its operands. -/
theorem includes_operand (h : (check v limits frames e).Returns env ss) (ha : a ∈ e.operands) :
    Includes env ss (check v limits frames a) := by
  obtain ⟨ts, hts, hsub⟩ := check_operand ha h
  refine ⟨ts, hts, fun c hc => ?_⟩
  obtain ⟨t, ht, htc⟩ := List.mem_filterMap.1 hc
  exact List.mem_filterMap.2 ⟨t, hsub ht, htc⟩

/-- The checks of a quantifier or a comprehension include those of its range below its variables,
and those of its body where the range holds. -/
theorem includes_bound {binders : List Source.Binder} {range body : Option Source.Expr}
    (h : (check v limits frames e).Returns env ss) (he : e.bound? = some (binders, range, body)) :
    ∃ wheres, (bindersWhere v.heap binders).Returns env wheres ∧
      let frames := Frame.forAll (sortBinders binders) wheres :: frames
      (∀ r ∈ range, Includes env ss (check v limits frames r)) ∧
      ∀ b ∈ body, match range with
        | none => Includes env ss (check v limits frames b)
        | some r => ∃ x, (lowerExpr v r).Returns env x ∧
            Includes env ss (check v limits (.guard x :: frames) b) := by
  have hframe : ∀ {bs frame}, (Frame.ofBinders v bs).Returns env frame →
      ∃ w, (bindersWhere v.heap bs).Returns env w ∧ frame = .forAll (sortBinders bs) w := by
    intro bs frame hframe
    simpa only [Frame.ofBinders, ExprM.returns_bind, ExprM.returns_pure] using hframe
  cases e with
  | quant i q bs r b ts ind =>
    obtain ⟨rfl, rfl, rfl⟩ : bs = binders ∧ r = range ∧ some b = body := by
      simpa [Expr.bound?] using he
    rw [check] at h
    obtain ⟨frame, hf, h⟩ := ExprM.returns_bind.1 h
    obtain ⟨w, hw, rfl⟩ := hframe hf
    refine ⟨w, hw, ?_⟩
    cases r with
    | none =>
      refine ⟨by simp, fun x hx => ?_⟩
      obtain rfl := Option.mem_some.1 hx
      exact .refl h
    | some r =>
      simp only [ExprM.returns_bind, ExprM.returns_pure] at h
      obtain ⟨first, hfirst, x, hx, rest, hrest, rfl⟩ := h
      refine ⟨fun a ha => ?_, fun a ha => ?_⟩
      · obtain rfl := Option.mem_some.1 ha
        exact (Includes.refl hfirst).left _
      · obtain rfl := Option.mem_some.1 ha
        exact ⟨x, hx, (Includes.refl hrest).right _⟩
  | setComp i bs r t =>
    obtain ⟨rfl, rfl, rfl⟩ : bs = binders ∧ some r = range ∧ t = body := by
      simpa [Expr.bound?] using he
    rw [check] at h
    obtain ⟨frame, hf, h⟩ := ExprM.returns_bind.1 h
    obtain ⟨w, hw, rfl⟩ := hframe hf
    obtain ⟨first, hfirst, h⟩ := ExprM.returns_bind.1 h
    refine ⟨w, hw, fun a ha => ?_, fun a ha => ?_⟩
    · obtain rfl := Option.mem_some.1 ha
      cases t with
      | none =>
        obtain rfl := ExprM.returns_pure.1 h
        exact .refl hfirst
      | some t =>
        simp only [ExprM.returns_bind, ExprM.returns_pure] at h
        obtain ⟨x, -, rest, -, rfl⟩ := h
        exact (Includes.refl hfirst).left _
    · obtain rfl := ha
      simp only [ExprM.returns_bind, ExprM.returns_pure] at h
      obtain ⟨x, hx, rest, hrest, rfl⟩ := h
      exact ⟨x, hx, (Includes.refl hrest).right _⟩
  | mapComp i b r t =>
    obtain ⟨rfl, rfl, rfl⟩ : [b] = binders ∧ some r = range ∧ some t = body := by
      simpa [Expr.bound?] using he
    simp only [check, ExprM.returns_bind, ExprM.returns_pure] at h
    obtain ⟨frame, hf, first, hfirst, x, hx, rest, hrest, rfl⟩ := h
    obtain ⟨w, hw, rfl⟩ := hframe hf
    refine ⟨w, hw, fun a ha => ?_, fun a ha => ?_⟩
    · obtain rfl := Option.mem_some.1 ha
      exact (Includes.refl hfirst).left _
    · obtain rfl := Option.mem_some.1 ha
      exact ⟨x, hx, (Includes.refl hrest).right _⟩
  | _ => cases he

/-- The checks of a match include those of its cases, each below the test for its constructor. -/
theorem includes_arm {i : Info} {arms : List (Pattern × Source.Expr)} {dt : Path} {d : Datatype}
    {s : IL.Expr} {c : Ctor} (h : (check v limits frames (.cases i e arms)).Returns env ss)
    (hdt : (matchedDatatype e.typ).Returns env dt) (hd : env.context.datatype dt = .ok d)
    (hs : (lowerExpr v e).Returns env s) (hc : c ∈ d.ctors) :
    let frames := Frame.guard (.app (Naming.isCtor dt c.name) [s]) :: frames
    match arms.find? (·.1.ctor == c.name) with
    | none => Includes env ss (pure (assertUnder env.context.options.autoTriggers frames
        (missingCase i.span c.name)))
    | some p => ∃ bindings, (caseBindings d dt p.1 s).Returns env bindings ∧
        Includes env ss (check v limits (.bind bindings :: frames) p.2) := by
  rw [check] at h
  simp only [ExprM.returns_bind, ExprM.returns_options, ExprM.returns_datatype,
    ExprM.returns_pure] at h
  obtain ⟨first, -, dt', hdt', s', hs', d', hd', _, rfl, cases, hcases, rfl⟩ := h
  obtain rfl := hdt.unique hdt'
  obtain rfl := hs.unique hs'
  obtain rfl := Except.ok.inj (hd.symm.trans hd')
  obtain ⟨stmts, hstmts, harm⟩ := hcases.exists_of_mem hc
  have hflatten : ∀ {x : ExprM (List IL.Stmt)}, x.Returns env stmts →
      Includes env (first ++ cases.flatten) x := by
    refine fun hx => Includes.right ⟨stmts, hx, fun a ha => ?_⟩ _
    obtain ⟨t, ht, hta⟩ := List.mem_filterMap.1 ha
    exact List.mem_filterMap.2 ⟨t, List.mem_flatten.2 ⟨stmts, hstmts, ht⟩, hta⟩
  rw [checkArms_eq, List.find?_map] at harm
  cases hfind : arms.find? (·.1.ctor == c.name) with
  | none =>
    simp only [Function.comp_def, hfind, Option.map_none] at harm
    exact hflatten harm
  | some p =>
    simp only [Function.comp_def, hfind, Option.map_some, ExprM.returns_bind] at harm
    obtain ⟨bindings, hbindings, harm⟩ := harm
    exact ⟨bindings, hbindings, hflatten harm⟩

theorem includes_checkNode {node : List IL.Stmt}
    (h : (checkNode v limits frames e).Returns env node)
    (hsub : ∀ c ∈ IL.Stmt.asserted node, c ∈ IL.Stmt.asserted ss) :
    ∃ os, (nodeObligations v limits e).Returns env os ∧ ∀ o ∈ os,
      Includes env ss (pure (assertUnder env.context.options.autoTriggers frames o)) := by
  simp only [checkNode, ExprM.returns_bind, ExprM.returns_options, ExprM.returns_pure] at h
  obtain ⟨_, rfl, os, hos, fact, -, rfl⟩ := h
  refine ⟨os, hos, fun o ho => ⟨_, rfl, fun c hc => hsub c ?_⟩⟩
  rw [IL.Stmt.asserted_append]
  refine List.mem_append_left _ ?_
  obtain ⟨t, ht, htc⟩ := List.mem_filterMap.1 hc
  exact List.mem_filterMap.2 ⟨t, List.mem_flatMap.2 ⟨o, ho, ht⟩, htc⟩

/-- The checks of an expression include those of its outermost operation. -/
theorem includes_node (h : (check v limits frames e).Returns env ss) :
    ∃ os, (nodeObligations v limits e).Returns env os ∧ ∀ o ∈ os,
      Includes env ss (pure (assertUnder env.context.options.autoTriggers frames o)) := by
  have hlast : ∀ {first node : List IL.Stmt}, ss = first ++ node →
      ∀ c ∈ IL.Stmt.asserted node, c ∈ IL.Stmt.asserted ss := by
    rintro first node rfl c hc
    rw [IL.Stmt.asserted_append]
    exact List.mem_append_right _ hc
  cases e with
  | field | arrayLength | destruct | ctor =>
    simp only [check, ExprM.returns_bind, ExprM.returns_pure] at h
    obtain ⟨_, -, node, hnode, hss⟩ := h
    exact includes_checkNode hnode (hlast hss)
  | index | call =>
    simp only [check, ExprM.returns_bind, ExprM.returns_pure] at h
    obtain ⟨_, -, _, -, node, hnode, hss⟩ := h
    exact includes_checkNode hnode (hlast hss)
  | slice | update =>
    simp only [check, ExprM.returns_bind, ExprM.returns_pure] at h
    obtain ⟨_, -, _, -, _, -, node, hnode, hss⟩ := h
    exact includes_checkNode hnode (hlast hss)
  | binary i op a b =>
    cases hop : guardOfFirst? op with
    | none =>
      simp only [check, hop, ExprM.returns_bind, ExprM.returns_pure] at h
      obtain ⟨_, -, _, -, node, hnode, hss⟩ := h
      exact includes_checkNode hnode (hlast hss)
    | some guard =>
      cases op with
      | and | or | implies => exact ⟨[], rfl, by simp⟩
      | _ => cases hop
  | _ => exact ⟨[], rfl, by simp⟩

end

/-! ## Checked points -/

/-- What is asserted for a point holds, below frames that lead to it. -/
def Point.Checked (env : Env) (limits : Limits) (old ρ : M.Valuation) (p : Point M) : Prop :=
  ∃ frames ss, Frame.Reached old frames ρ p.state ∧
    (check p.view limits frames p.expr).Returns env ss ∧
    ∀ c ∈ IL.Stmt.asserted ss, Holds old ρ c

namespace Point.Checked

variable {p q : Point M}

/-- A part whose checks are included, below frames that lead to it. -/
theorem of_includes {v : View} {frames : List Frame} {ss : List IL.Stmt} {a : Source.Expr}
    (hasserted : ∀ c ∈ IL.Stmt.asserted ss, Holds old ρ c)
    (h : Includes env ss (check v limits frames a)) (hσ : Frame.Reached old frames ρ σ) :
    Checked env limits old ρ ⟨v, a, σ⟩ := by
  obtain ⟨ts, hts, hsub⟩ := h
  exact ⟨frames, ts, hσ, hts, fun c hc => hasserted c (hsub c hc)⟩

/-- Evaluation leads from a checked point to checked points. -/
theorem part (hp : p.Checked env limits old ρ) (h : Part env old p q) :
    q.Checked env limits old ρ := by
  obtain ⟨frames, ss, hreached, hss, hasserted⟩ := hp
  cases h with
  | operand ha => exact of_includes hasserted (includes_operand hss ha) hreached
  | old => exact ⟨frames, ss, hreached, hss, hasserted⟩
  | @second v i op a b guard x σ hop hx hguard =>
    simp only [check, hop, ExprM.returns_bind, ExprM.returns_pure] at hss
    obtain ⟨first, -, x', hx', rest, hrest, rfl⟩ := hss
    obtain rfl := hx.unique hx'
    exact of_includes hasserted ((Includes.refl hrest).right _) ⟨σ, hreached, hguard, rfl⟩
  | @range v e binders r body σ σ' he hσ =>
    obtain ⟨w, hw, hassigns, hholds⟩ := hσ
    obtain ⟨w', hw', hrange, -⟩ := includes_bound hss he
    obtain rfl := hw.unique hw'
    exact of_includes hasserted (hrange r rfl) ⟨σ, hreached, hassigns, hholds⟩
  | @body v e binders range b σ σ' he hσ hrange =>
    obtain ⟨w, hw, hassigns, hholds⟩ := hσ
    obtain ⟨w', hw', -, hbody⟩ := includes_bound hss he
    obtain rfl := hw.unique hw'
    have hbody := hbody b rfl
    cases range with
    | none => exact of_includes hasserted hbody ⟨σ, hreached, hassigns, hholds⟩
    | some r =>
      obtain ⟨x, hx, hincludes⟩ := hbody
      obtain ⟨x', hx', hholds'⟩ := hrange r rfl
      obtain rfl := hx.unique hx'
      exact of_includes hasserted hincludes ⟨σ', ⟨σ, hreached, hassigns, hholds⟩, hholds', rfl⟩
  | @letBody v i bindings b values σ hvalues =>
    simp only [check, ExprM.returns_bind, ExprM.returns_pure] at hss
    obtain ⟨first, -, values', hvalues', rest, hrest, rfl⟩ := hss
    obtain rfl := hvalues.unique hvalues'
    exact of_includes hasserted ((Includes.refl hrest).right _) ⟨σ, hreached, rfl⟩
  | @thn v i c a b x σ hx hholds =>
    simp only [check, ExprM.returns_bind, ExprM.returns_pure] at hss
    obtain ⟨first, -, x', hx', thn, hthn, els, -, rfl⟩ := hss
    obtain rfl := hx.unique hx'
    exact of_includes hasserted (((Includes.refl hthn).right _).left _)
      ⟨σ, hreached, hholds, rfl⟩
  | @els v i c a b x σ hx hfails =>
    simp only [check, ExprM.returns_bind, ExprM.returns_pure] at hss
    obtain ⟨first, -, x', hx', thn, -, els, hels, rfl⟩ := hss
    obtain rfl := hx.unique hx'
    exact of_includes hasserted ((Includes.refl hels).right _)
      ⟨σ, hreached, (holds_neg _).2 hfails, rfl⟩
  | @arm v i e arms dt d s c p bindings σ hdt hd hs hc hp htest hbindings =>
    have harm := includes_arm hss hdt hd hs hc
    simp only [hp] at harm
    obtain ⟨bindings', hbindings', hincludes⟩ := harm
    obtain rfl := hbindings.unique hbindings'
    exact of_includes hasserted hincludes ⟨σ, ⟨σ, hreached, htest, rfl⟩, rfl⟩

/-- What is asserted below frames holds where they lead. -/
theorem holds_of_assertUnder (auto : Bool) {frames : List Frame} {ss : List IL.Stmt}
    {o : Obligation} (hasserted : ∀ c ∈ IL.Stmt.asserted ss, Holds old ρ c)
    (hsub : ∀ c ∈ IL.Stmt.asserted (assertUnder auto frames o), c ∈ IL.Stmt.asserted ss)
    (hσ : Frame.Reached old frames ρ σ) : Holds old σ o.cond := by
  refine (Frame.holds_wrapAll auto frames o.cond).1 ?_ σ hσ
  cases htrue : (Frame.wrapAll auto frames o.cond).isTrue with
  | true =>
    rw [Expr.isTrue_iff.1 htrue]
    exact holds_tt
  | false => exact hasserted _ (hsub _ (by simp [assertUnder, htrue, IL.Stmt.asserted]))

/-- At a checked point the obligations of the outermost operation hold. -/
theorem obligations (hp : p.Checked env limits old ρ) :
    ∃ os, (nodeObligations p.view limits p.expr).Returns env os ∧
      ∀ o ∈ os, Holds old p.state o.cond := by
  obtain ⟨frames, ss, hreached, hss, hasserted⟩ := hp
  obtain ⟨os, hos, hincludes⟩ := includes_node hss
  refine ⟨os, hos, fun o ho => ?_⟩
  obtain ⟨ts, hts, hsub⟩ := hincludes o ho
  obtain rfl := ExprM.returns_pure.1 hts
  exact holds_of_assertUnder _ hasserted hsub hreached

/-- At a checked match every constructor that the value may have been built by has a case. -/
theorem exists_arm {v : View} {i : Info} {e : Source.Expr} {arms : List (Pattern × Source.Expr)}
    (hp : Checked env limits old ρ ⟨v, .cases i e arms, σ⟩) {dt : Path} {d : Datatype}
    {s : IL.Expr} {c : Ctor} (hdt : (matchedDatatype e.typ).Returns env dt)
    (hd : env.context.datatype dt = .ok d) (hs : (lowerExpr v e).Returns env s)
    (hc : c ∈ d.ctors) (htest : Holds old σ (.app (Naming.isCtor dt c.name) [s])) :
    ∃ p, arms.find? (·.1.ctor == c.name) = some p := by
  obtain ⟨frames, ss, hreached, hss, hasserted⟩ := hp
  cases hfind : arms.find? (·.1.ctor == c.name) with
  | some p => exact ⟨p, rfl⟩
  | none =>
    have harm := includes_arm hss hdt hd hs hc
    simp only [hfind] at harm
    obtain ⟨ts, hts, hsub⟩ := harm
    obtain rfl := ExprM.returns_pure.1 hts
    refine absurd (holds_of_assertUnder _ hasserted hsub ⟨σ, hreached, htest, rfl⟩) ?_
    exact holds_ff

end Point.Checked

end ContractLowering
