import ContractLowering.Proofs.Lowering.Evaluated

/-!
# Where the assertions for an expression come from

Whatever the evaluation of an expression reaches is checked. Nothing else is: an assertion for its
definedness is an obligation of an operation that the evaluation comes to, or that a constructor has
a match case, below the frames that lead there (`check_reported`).
-/

namespace ContractLowering

open IL Source

/-- An obligation is of a node that the evaluation of an expression comes to, below frames. The node
has it, or it is a match without a case for a constructor. -/
inductive Reported (env : Env) (limits : Limits) (v : View) (e : Source.Expr) :
    View → List Frame → Source.Expr → Obligation → Prop
  | node {w fs n os o} (hn : Evaluates env v e w fs n)
      (hos : (nodeObligations w limits n).Returns env os) (ho : o ∈ os) :
      Reported env limits v e w fs n o
  | missing {w fs i s arms dt args d c x} (hn : Evaluates env v e w fs (.cases i s arms))
      (ht : s.typ = .datatype dt args) (hd : env.context.datatype dt = .ok d) (hc : c ∈ d.ctors)
      (hs : (lowerExpr w s).Returns env x) (hfind : arms.find? (·.1.ctor == c.name) = none) :
      Reported env limits v e w (.guard (.app (Naming.isCtor dt c.name) [x]) :: fs)
        (.cases i s arms) (missingCase i.span c.name)

/-- Statements assert nothing but obligations that are reported for an expression, below frames. -/
def Explained (env : Env) (limits : Limits) (v : View) (e : Source.Expr) (frames : List Frame)
    (ss : List IL.Stmt) : Prop :=
  ∀ msg cond, .assert msg cond ∈ ss → ∃ w fs n o, Reported env limits v e w fs n o ∧ o.msg = msg ∧
    cond = Frame.wrapAll env.context.options.autoTriggers (fs ++ frames) o.cond

variable {env : Env} {limits : Limits} {v w : View} {e a : Source.Expr} {frames fs : List Frame}
  {ss ss' : List IL.Stmt}

namespace Explained

theorem nil : Explained env limits v e frames [] := fun _ _ h => nomatch h

theorem append (h : Explained env limits v e frames ss) (h' : Explained env limits v e frames ss') :
    Explained env limits v e frames (ss ++ ss') := fun msg cond hmem =>
  (List.mem_append.1 hmem).elim (h msg cond) (h' msg cond)

theorem flatten {sss : List (List IL.Stmt)} (h : ∀ ss ∈ sss, Explained env limits v e frames ss) :
    Explained env limits v e frames sss.flatten := fun msg cond hmem => by
  obtain ⟨ss, hss, hmem⟩ := List.mem_flatten.1 hmem
  exact h ss hss msg cond hmem

/-- What is reported for a part is reported for the expression. -/
theorem inner (hi : Inner env v e w fs a) (h : Explained env limits w a (fs ++ frames) ss) :
    Explained env limits v e frames ss := fun msg cond hmem => by
  obtain ⟨u, gs, n, o, hreported, hmsg, hcond⟩ := h msg cond hmem
  rw [← List.append_assoc] at hcond
  cases hreported with
  | node hn hos ho => exact ⟨u, gs ++ fs, n, o, .node (.inside hi hn) hos ho, hmsg, hcond⟩
  | missing hn ht hd hc hs hfind =>
    exact ⟨u, _, _, _, .missing (.inside hi hn) ht hd hc hs hfind, hmsg, hcond⟩

theorem operand (ha : a ∈ e.operands) (h : Explained env limits v a frames ss) :
    Explained env limits v e frames ss := inner (.operand ha) h

end Explained

theorem eq_of_mem_assertUnder {auto : Bool} {o : Obligation} {msg : Message} {cond : IL.Expr}
    (h : .assert msg cond ∈ assertUnder auto frames o) :
    o.msg = msg ∧ cond = Frame.wrapAll auto frames o.cond := by
  simp only [assertUnder] at h
  split at h
  · simp at h
  · simpa [eq_comm] using h

/-- The assertions for the outermost operation. -/
theorem checkNode_explained (h : (checkNode v limits frames e).Returns env ss) :
    Explained env limits v e frames ss := by
  simp only [checkNode, ExprM.returns_bind, ExprM.returns_options, ExprM.returns_pure] at h
  obtain ⟨_, rfl, os, hos, fact, -, rfl⟩ := h
  intro msg cond hmem
  rcases List.mem_append.1 hmem with hmem | hmem
  · obtain ⟨o, ho, hmem⟩ := List.mem_flatMap.1 hmem
    obtain ⟨hmsg, hcond⟩ := eq_of_mem_assertUnder hmem
    exact ⟨v, [], e, o, .node .here hos ho, hmsg, hcond⟩
  · obtain ⟨fact, -, hmem⟩ := List.mem_flatMap.1 hmem
    obtain ⟨c, hc⟩ := mem_assumeUnder hmem
    cases hc

/-- Whatever its view and under whatever frames, the assertions for an expression are reported. -/
def ChecksReported (env : Env) (limits : Limits) (e : Source.Expr) : Prop :=
  ∀ v frames ss, (check v limits frames e).Returns env ss → Explained env limits v e frames ss

theorem check?_explained {o : Option Source.Expr} (ih : ∀ a ∈ o, ChecksReported env limits a)
    (h : (check? v limits frames o).Returns env ss) (hsub : ∀ a ∈ o, a ∈ e.operands) :
    Explained env limits v e frames ss := by
  cases o with
  | none => exact (ExprM.returns_pure.1 h) ▸ .nil
  | some a => exact .operand (hsub a rfl) (ih a rfl v frames ss h)

theorem checkList_explained {es : List Source.Expr} (ih : ∀ a ∈ es, ChecksReported env limits a)
    (h : (checkList v limits frames es).Returns env ss) (hsub : es ⊆ e.operands) :
    Explained env limits v e frames ss := by
  induction es generalizing ss with
  | nil => exact (ExprM.returns_pure.1 h) ▸ .nil
  | cons a es ihes =>
    simp only [checkList, ExprM.returns_bind, ExprM.returns_pure] at h
    obtain ⟨first, hfirst, rest, hrest, rfl⟩ := h
    obtain ⟨ha, hes⟩ := List.forall_mem_cons.1 ih
    obtain ⟨hmem, hsub⟩ := List.cons_subset.1 hsub
    exact .append (.operand hmem (ha v frames first hfirst)) (ihes hes hrest hsub)

theorem checkEntries_explained {kvs : List (Source.Expr × Source.Expr)}
    (ih : ∀ p ∈ kvs, ChecksReported env limits p.1 ∧ ChecksReported env limits p.2)
    (h : (checkEntries v limits frames kvs).Returns env ss)
    (hsub : (kvs.flatMap fun p => [p.1, p.2]) ⊆ e.operands) :
    Explained env limits v e frames ss := by
  induction kvs generalizing ss with
  | nil => exact (ExprM.returns_pure.1 h) ▸ .nil
  | cons p kvs ihkvs =>
    simp only [checkEntries, ExprM.returns_bind, ExprM.returns_pure] at h
    obtain ⟨first, hfirst, second, hsecond, rest, hrest, rfl⟩ := h
    obtain ⟨⟨hkey, hvalue⟩, hkvs⟩ := List.forall_mem_cons.1 ih
    simp only [List.flatMap_cons, List.cons_append, List.nil_append, List.cons_subset] at hsub
    exact .append (.append (.operand hsub.1 (hkey v frames first hfirst))
      (.operand hsub.2.1 (hvalue v frames second hsecond))) (ihkvs hkvs hrest hsub.2.2)

theorem checkBindings_explained {bs : List (String × Source.Expr)}
    (ih : ∀ b ∈ bs, ChecksReported env limits b.2)
    (h : (checkBindings v limits frames bs).Returns env ss) (hsub : bs.map (·.2) ⊆ e.operands) :
    Explained env limits v e frames ss := by
  induction bs generalizing ss with
  | nil => exact (ExprM.returns_pure.1 h) ▸ .nil
  | cons b bs ihbs =>
    simp only [checkBindings, ExprM.returns_bind, ExprM.returns_pure] at h
    obtain ⟨first, hfirst, rest, hrest, rfl⟩ := h
    obtain ⟨hb, hbs⟩ := List.forall_mem_cons.1 ih
    obtain ⟨hmem, hsub⟩ := List.cons_subset.1 hsub
    exact .append (.operand hmem (hb v frames first hfirst)) (ihbs hbs hrest hsub)

/-- The assertions for the cases of a match, one list for each constructor. -/
theorem checkCases_explained {i : Info} {s : Source.Expr} {arms : List (Pattern × Source.Expr)}
    (ih : ∀ p ∈ arms, ChecksReported env limits p.2) {dt : Path} {args : List Typ} {d : Datatype}
    {x : IL.Expr} (ht : s.typ = .datatype dt args) (hd : env.context.datatype dt = .ok d)
    (hs : (lowerExpr v s).Returns env x) {c : Ctor} (hc : c ∈ d.ctors)
    (h : ExprM.Returns (match (checkArms v limits arms).find? (·.1.ctor == c.name) with
      | none => pure (assertUnder env.context.options.autoTriggers
          (.guard (.app (Naming.isCtor dt c.name) [x]) :: frames) (missingCase i.span c.name))
      | some (p, body) => do
        let bindings ← caseBindings d dt p x
        body (.bind bindings :: .guard (.app (Naming.isCtor dt c.name) [x]) :: frames)) env ss) :
    Explained env limits v (.cases i s arms) frames ss := by
  rw [checkArms_eq, List.find?_map] at h
  cases hfind : arms.find? (·.1.ctor == c.name) with
  | none =>
    simp only [Function.comp_def, hfind, Option.map_none, ExprM.returns_pure] at h
    subst h
    intro msg cond hmem
    obtain ⟨hmsg, hcond⟩ := eq_of_mem_assertUnder hmem
    exact ⟨v, _, _, _, .missing .here ht hd hc hs hfind, hmsg, hcond⟩
  | some p =>
    simp only [Function.comp_def, hfind, Option.map_some, ExprM.returns_bind] at h
    obtain ⟨bindings, hbindings, h⟩ := h
    exact .inner (.arm ht hd hc hs hfind hbindings)
      (ih p (List.mem_of_find?_eq_some hfind) v _ ss h)

/-- An expression is checked by its obligations and those of its parts, each below the frames that
lead to it. -/
theorem check_reported (e : Source.Expr) : ChecksReported env limits e := by
  induction e using Source.Expr.recData with
  | bool | int | null | var | this =>
    intro v frames ss h
    exact (ExprM.returns_pure.1 h) ▸ .nil
  | field i e f ih | arrayLength i e ih | destruct i e d c f ih =>
    intro v frames ss h
    simp only [check, ExprM.returns_bind, ExprM.returns_pure] at h
    obtain ⟨inner, hinner, node, hnode, rfl⟩ := h
    exact .append (.operand (by simp [Expr.operands]) (ih v frames inner hinner))
      (checkNode_explained hnode)
  | isCtor i e d c ih | fresh i e ih | unary i op e ih =>
    exact fun v frames ss h => .operand (by simp [Expr.operands]) (ih v frames ss h)
  | old i e ih => exact fun v frames ss h => .inner .old (ih v.old frames ss h)
  | index i a b iha ihb =>
    intro v frames ss h
    simp only [check, ExprM.returns_bind, ExprM.returns_pure] at h
    obtain ⟨first, hfirst, second, hsecond, node, hnode, rfl⟩ := h
    exact .append (.append (.operand (by simp [Expr.operands]) (iha v frames first hfirst))
      (.operand (by simp [Expr.operands]) (ihb v frames second hsecond)))
      (checkNode_explained hnode)
  | slice i e lo hi ih ihlo ihhi =>
    intro v frames ss h
    simp only [check, ExprM.returns_bind, ExprM.returns_pure] at h
    obtain ⟨inner, hinner, lower, hlower, upper, hupper, node, hnode, rfl⟩ := h
    exact .append (.append (.append (.operand (by simp [Expr.operands]) (ih v frames inner hinner))
      (check?_explained ihlo hlower fun a ha => by simp [Expr.operands, Option.mem_def.1 ha]))
      (check?_explained ihhi hupper fun a ha => by simp [Expr.operands, Option.mem_def.1 ha]))
      (checkNode_explained hnode)
  | update i a b c iha ihb ihc =>
    intro v frames ss h
    simp only [check, ExprM.returns_bind, ExprM.returns_pure] at h
    obtain ⟨first, hfirst, second, hsecond, third, hthird, node, hnode, rfl⟩ := h
    exact .append (.append (.append (.operand (by simp [Expr.operands]) (iha v frames first hfirst))
      (.operand (by simp [Expr.operands]) (ihb v frames second hsecond)))
      (.operand (by simp [Expr.operands]) (ihc v frames third hthird)))
      (checkNode_explained hnode)
  | display i kind es ih =>
    exact fun v frames ss h => checkList_explained ih h (List.Subset.refl _)
  | mapDisplay i kvs ih =>
    exact fun v frames ss h => checkEntries_explained ih h (List.Subset.refl _)
  | ctor i d c es ih =>
    intro v frames ss h
    simp only [check, ExprM.returns_bind, ExprM.returns_pure] at h
    obtain ⟨inner, hinner, node, hnode, rfl⟩ := h
    exact .append (checkList_explained ih hinner (List.Subset.refl _)) (checkNode_explained hnode)
  | binary i op a b iha ihb =>
    intro v frames ss h
    simp only [check, ExprM.returns_bind] at h
    obtain ⟨first, hfirst, h⟩ := h
    cases hg : guardOfFirst? op with
    | some guard =>
      simp only [hg, ExprM.returns_bind, ExprM.returns_pure] at h
      obtain ⟨x, hx, rest, hrest, rfl⟩ := h
      exact .append (.operand (by simp [Expr.operands, hg]) (iha v frames first hfirst))
        (.inner (.second hg hx) (ihb v _ rest hrest))
    | none =>
      simp only [hg, ExprM.returns_bind, ExprM.returns_pure] at h
      obtain ⟨second, hsecond, node, hnode, rfl⟩ := h
      exact .append (.append (.operand (by simp [Expr.operands, hg]) (iha v frames first hfirst))
        (.operand (by simp [Expr.operands, hg]) (ihb v frames second hsecond)))
        (checkNode_explained hnode)
  | quant i q bs r b ts ind ihr ihb =>
    intro v frames ss h
    simp only [check, ExprM.returns_bind] at h
    obtain ⟨f, hf, h⟩ := h
    cases r with
    | none => exact .inner (.quantBody hf) (ihb v _ ss h)
    | some r =>
      simp only [ExprM.returns_bind, ExprM.returns_pure] at h
      obtain ⟨first, hfirst, x, hx, rest, hrest, rfl⟩ := h
      exact .append (.inner (.quantRange hf) (ihr r rfl v _ first hfirst))
        (.inner (.quantRanged hf hx) (ihb v _ rest hrest))
  | setComp i bs r t ihr iht =>
    intro v frames ss h
    simp only [check, ExprM.returns_bind] at h
    obtain ⟨f, hf, first, hfirst, h⟩ := h
    have hrange := (ihr v _ first hfirst).inner (.setRange (t := t) (i := i) hf)
    cases t with
    | none => exact (ExprM.returns_pure.1 h) ▸ hrange
    | some t =>
      simp only [ExprM.returns_bind, ExprM.returns_pure] at h
      obtain ⟨x, hx, rest, hrest, rfl⟩ := h
      exact .append hrange (.inner (.setTerm hf hx) (iht t rfl v _ rest hrest))
  | mapComp i b r t ihr iht =>
    intro v frames ss h
    simp only [check, ExprM.returns_bind, ExprM.returns_pure] at h
    obtain ⟨f, hf, first, hfirst, x, hx, rest, hrest, rfl⟩ := h
    exact .append (.inner (.mapRange hf) (ihr v _ first hfirst))
      (.inner (.mapTerm hf hx) (iht v _ rest hrest))
  | letIn i bs b ihbs ihb =>
    intro v frames ss h
    simp only [check, ExprM.returns_bind, ExprM.returns_pure] at h
    obtain ⟨first, hfirst, values, hvalues, rest, hrest, rfl⟩ := h
    exact .append (checkBindings_explained ihbs hfirst (List.Subset.refl _))
      (.inner (.letBody hvalues) (ihb v _ rest hrest))
  | ite i c a b ihc iha ihb =>
    intro v frames ss h
    simp only [check, ExprM.returns_bind, ExprM.returns_pure] at h
    obtain ⟨first, hfirst, x, hx, thn, hthn, els, hels, rfl⟩ := h
    exact .append (.append (.operand (by simp [Expr.operands]) (ihc v frames first hfirst))
      (.inner (.thn hx) (iha v _ thn hthn))) (.inner (.els hx) (ihb v _ els hels))
  | cases i e arms ihe iharms =>
    intro v frames ss h
    simp only [check, ExprM.returns_bind, ExprM.returns_pure, ExprM.returns_datatype,
      ExprM.returns_options, returns_matchedDatatype] at h
    obtain ⟨first, hfirst, dt, ⟨args, ht⟩, s, hs, d, hd, _, rfl, cases, hcases, rfl⟩ := h
    refine .append (.operand (by simp [Expr.operands]) (ihe v frames first hfirst))
      (.flatten fun ts hts => ?_)
    obtain ⟨c, hc, harm⟩ := exists_of_forall₂ (ExprM.returns_mapM.1 hcases) hts
    exact checkCases_explained iharms ht hd hs hc harm
  | call i f receiver args ihr ihargs =>
    intro v frames ss h
    simp only [check, ExprM.returns_bind, ExprM.returns_pure] at h
    obtain ⟨first, hfirst, rest, hrest, node, hnode, rfl⟩ := h
    exact .append (.append
      (check?_explained ihr hfirst fun a ha => by simp [Expr.operands, Option.mem_def.1 ha])
      (checkList_explained ihargs hrest fun a ha => by simp [Expr.operands, ha]))
      (checkNode_explained hnode)

end ContractLowering
