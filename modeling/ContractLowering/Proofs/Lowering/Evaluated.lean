import ContractLowering.Proofs.Lowering.Definedness

/-!
# The operations that the evaluation of an expression reaches

`Evaluates env v e w fs n` says that the evaluation of `e` comes to `n`, with the view `w` and below
the frames `fs`: a conjunct after the first is reached if the first holds, the body of a quantifier
for all values of its variables. Whatever is reached is checked under the conditions that reach it
(`check_evaluates`).
-/

namespace ContractLowering

open IL Source

/-- The parts of an expression that are evaluated whenever it is, in the same state and without
further conditions. -/
def Source.Expr.operands : Source.Expr → List Source.Expr
  | .field _ e _ | .arrayLength _ e | .destruct _ e _ _ _ | .isCtor _ e _ _ | .fresh _ e
  | .unary _ _ e | .cases _ e _ => [e]
  | .index _ a b => [a, b]
  | .slice _ e lo hi => e :: (lo.toList ++ hi.toList)
  | .update _ a b c => [a, b, c]
  | .display _ _ es | .ctor _ _ _ es => es
  | .mapDisplay _ entries => entries.flatMap fun e => [e.1, e.2]
  | .binary _ op a b => if (guardOfFirst? op).isSome then [a] else [a, b]
  | .letIn _ bs _ => bs.map (·.2)
  | .ite _ c _ _ => [c]
  | .call _ _ receiver args => receiver.toList ++ args
  | _ => []

/-- An immediate part of an expression, with the view it is evaluated in and the frames that stand
between the two, the innermost first. -/
inductive Inner (env : Env) (v : View) : Source.Expr → View → List Frame → Source.Expr → Prop
  | operand {e a} (ha : a ∈ e.operands) : Inner env v e v [] a
  | old {i e} : Inner env v (.old i e) v.old [] e
  | second {i op a b guard x} (hg : guardOfFirst? op = some guard)
      (hx : (lowerExpr v a).Returns env x) :
      Inner env v (.binary i op a b) v [.guard (guard x)] b
  | quantRange {i q bs r b ts ind f} (hf : (Frame.ofBinders v bs).Returns env f) :
      Inner env v (.quant i q bs (some r) b ts ind) v [f] r
  | quantBody {i q bs b ts ind f} (hf : (Frame.ofBinders v bs).Returns env f) :
      Inner env v (.quant i q bs none b ts ind) v [f] b
  | quantRanged {i q bs r b ts ind f x} (hf : (Frame.ofBinders v bs).Returns env f)
      (hx : (lowerExpr v r).Returns env x) :
      Inner env v (.quant i q bs (some r) b ts ind) v [.guard x, f] b
  | setRange {i bs r t f} (hf : (Frame.ofBinders v bs).Returns env f) :
      Inner env v (.setComp i bs r t) v [f] r
  | setTerm {i bs r t f x} (hf : (Frame.ofBinders v bs).Returns env f)
      (hx : (lowerExpr v r).Returns env x) :
      Inner env v (.setComp i bs r (some t)) v [.guard x, f] t
  | mapRange {i b r t f} (hf : (Frame.ofBinders v [b]).Returns env f) :
      Inner env v (.mapComp i b r t) v [f] r
  | mapTerm {i b r t f x} (hf : (Frame.ofBinders v [b]).Returns env f)
      (hx : (lowerExpr v r).Returns env x) :
      Inner env v (.mapComp i b r t) v [.guard x, f] t
  | letBody {i bs b values} (hbs : (lowerBindings v bs).Returns env values) :
      Inner env v (.letIn i bs b) v [.bind values] b
  | thn {i c a b x} (hx : (lowerExpr v c).Returns env x) :
      Inner env v (.ite i c a b) v [.guard x] a
  | els {i c a b x} (hx : (lowerExpr v c).Returns env x) :
      Inner env v (.ite i c a b) v [.guard x.neg] b
  | arm {i e arms dt args d c s p b bindings} (ht : e.typ = .datatype dt args)
      (hd : env.context.datatype dt = .ok d) (hc : c ∈ d.ctors)
      (hs : (lowerExpr v e).Returns env s)
      (hfind : arms.find? (·.1.ctor == c.name) = some (p, b))
      (hbs : (caseBindings d dt p s).Returns env bindings) :
      Inner env v (.cases i e arms) v
        [.bind bindings, .guard (.app (Naming.isCtor dt c.name) [s])] b

/-- The evaluation of an expression comes to another one, with a view and below frames. -/
inductive Evaluates (env : Env) : View → Source.Expr → View → List Frame → Source.Expr → Prop
  | here {v e} : Evaluates env v e v [] e
  | inside {v e w fs a u gs n} (hi : Inner env v e w fs a) (hn : Evaluates env w a u gs n) :
      Evaluates env v e u (gs ++ fs) n

section

variable {env : Env} {limits : Limits} {v : View} {frames : List Frame}

theorem check?_toList {o : Option Source.Expr} {ss : List IL.Stmt}
    (h : (check? v limits frames o).Returns env ss) {a : Source.Expr} (ha : a ∈ o.toList) :
    (check v limits frames a).Returns env ss := by
  cases o with
  | none => simp at ha
  | some e =>
    obtain rfl : a = e := by simpa using ha
    exact h

theorem checkList_mem {es : List Source.Expr} {ss : List IL.Stmt}
    (h : (checkList v limits frames es).Returns env ss) {a : Source.Expr} (ha : a ∈ es) :
    ∃ ts, (check v limits frames a).Returns env ts ∧ ts ⊆ ss := by
  induction es generalizing ss with
  | nil => simp at ha
  | cons e es ih =>
    simp only [checkList, ExprM.returns_bind, ExprM.returns_pure] at h
    obtain ⟨first, hfirst, rest, hrest, rfl⟩ := h
    rcases List.mem_cons.1 ha with rfl | ha
    · exact ⟨first, hfirst, by simp⟩
    · obtain ⟨ts, hts, hsub⟩ := ih hrest ha
      exact ⟨ts, hts, List.Subset.trans hsub (by simp)⟩

theorem checkEntries_mem {es : List (Source.Expr × Source.Expr)} {ss : List IL.Stmt}
    (h : (checkEntries v limits frames es).Returns env ss) {a : Source.Expr}
    (ha : a ∈ es.flatMap fun e => [e.1, e.2]) :
    ∃ ts, (check v limits frames a).Returns env ts ∧ ts ⊆ ss := by
  induction es generalizing ss with
  | nil => simp at ha
  | cons e es ih =>
    simp only [checkEntries, ExprM.returns_bind, ExprM.returns_pure] at h
    obtain ⟨first, hfirst, second, hsecond, rest, hrest, rfl⟩ := h
    simp only [List.flatMap_cons, List.mem_append, List.mem_cons, List.not_mem_nil, or_false] at ha
    rcases ha with (rfl | rfl) | ha
    · exact ⟨first, hfirst, by simp⟩
    · exact ⟨second, hsecond, by simp⟩
    · obtain ⟨ts, hts, hsub⟩ := ih hrest ha
      exact ⟨ts, hts, List.Subset.trans hsub (by simp)⟩

theorem checkBindings_mem {bs : List (String × Source.Expr)} {ss : List IL.Stmt}
    (h : (checkBindings v limits frames bs).Returns env ss) {a : Source.Expr}
    (ha : a ∈ bs.map (·.2)) : ∃ ts, (check v limits frames a).Returns env ts ∧ ts ⊆ ss := by
  induction bs generalizing ss with
  | nil => simp at ha
  | cons b bs ih =>
    simp only [checkBindings, ExprM.returns_bind, ExprM.returns_pure] at h
    obtain ⟨first, hfirst, rest, hrest, rfl⟩ := h
    rcases List.mem_cons.1 ha with rfl | ha
    · exact ⟨first, hfirst, by simp⟩
    · obtain ⟨ts, hts, hsub⟩ := ih hrest ha
      exact ⟨ts, hts, List.Subset.trans hsub (by simp)⟩

/-- The operands of an expression are checked under the frames of the expression. -/
theorem check_operand {e a : Source.Expr} (ha : a ∈ e.operands) {ss : List IL.Stmt}
    (h : (check v limits frames e).Returns env ss) :
    ∃ ts, (check v limits frames a).Returns env ts ∧ ts ⊆ ss := by
  cases e with
  | bool | int | null | var | this | old | quant | setComp | mapComp => simp [Expr.operands] at ha
  | field i e f | arrayLength i e | destruct i e d c f =>
    obtain rfl : a = e := by simpa [Expr.operands] using ha
    simp only [check, ExprM.returns_bind, ExprM.returns_pure] at h
    obtain ⟨inner, hinner, node, -, rfl⟩ := h
    exact ⟨inner, hinner, by simp⟩
  | isCtor i e d c | fresh i e | unary i op e =>
    obtain rfl : a = e := by simpa [Expr.operands] using ha
    exact ⟨ss, h, by simp⟩
  | index i a₁ b₁ =>
    simp only [check, ExprM.returns_bind, ExprM.returns_pure] at h
    obtain ⟨first, hfirst, second, hsecond, node, -, rfl⟩ := h
    rcases (by simpa [Expr.operands] using ha : a = a₁ ∨ a = b₁) with rfl | rfl
    · exact ⟨first, hfirst, by simp⟩
    · exact ⟨second, hsecond, by simp⟩
  | slice i e lo hi =>
    simp only [check, ExprM.returns_bind, ExprM.returns_pure] at h
    obtain ⟨inner, hinner, lower, hlower, upper, hupper, node, -, rfl⟩ := h
    rcases (by simpa [Expr.operands] using ha : a = e ∨ a ∈ lo ∨ a ∈ hi) with rfl | ha | ha
    · exact ⟨inner, hinner, by simp⟩
    · exact ⟨lower, check?_toList hlower (by simpa using ha), by simp⟩
    · exact ⟨upper, check?_toList hupper (by simpa using ha), fun t ht => by simp [ht]⟩
  | update i a₁ b₁ c₁ =>
    simp only [check, ExprM.returns_bind, ExprM.returns_pure] at h
    obtain ⟨first, hfirst, second, hsecond, third, hthird, node, -, rfl⟩ := h
    rcases (by simpa [Expr.operands] using ha : a = a₁ ∨ a = b₁ ∨ a = c₁) with rfl | rfl | rfl
    · exact ⟨first, hfirst, by simp⟩
    · exact ⟨second, hsecond, by simp⟩
    · exact ⟨third, hthird, fun t ht => by simp [ht]⟩
  | display i kind es => exact checkList_mem h ha
  | ctor i d c es =>
    simp only [check, ExprM.returns_bind, ExprM.returns_pure] at h
    obtain ⟨inner, hinner, node, -, rfl⟩ := h
    obtain ⟨ts, hts, hsub⟩ := checkList_mem hinner ha
    exact ⟨ts, hts, List.Subset.trans hsub (by simp)⟩
  | mapDisplay i entries => exact checkEntries_mem h ha
  | binary i op a₁ b₁ =>
    simp only [check, ExprM.returns_bind] at h
    obtain ⟨first, hfirst, h⟩ := h
    cases hg : guardOfFirst? op with
    | some guard =>
      obtain rfl : a = a₁ := by simpa [Expr.operands, hg] using ha
      simp only [hg, ExprM.returns_bind, ExprM.returns_pure] at h
      obtain ⟨x, -, rest, -, rfl⟩ := h
      exact ⟨first, hfirst, by simp⟩
    | none =>
      simp only [hg, ExprM.returns_bind, ExprM.returns_pure] at h
      obtain ⟨second, hsecond, node, -, rfl⟩ := h
      rcases (by simpa [Expr.operands, hg] using ha : a = a₁ ∨ a = b₁) with rfl | rfl
      · exact ⟨first, hfirst, by simp⟩
      · exact ⟨second, hsecond, by simp⟩
  | letIn i bs b =>
    simp only [check, ExprM.returns_bind, ExprM.returns_pure] at h
    obtain ⟨first, hfirst, values, -, rest, -, rfl⟩ := h
    obtain ⟨ts, hts, hsub⟩ := checkBindings_mem hfirst ha
    exact ⟨ts, hts, List.Subset.trans hsub (by simp)⟩
  | ite i c a₁ b₁ =>
    obtain rfl : a = c := by simpa [Expr.operands] using ha
    simp only [check, ExprM.returns_bind, ExprM.returns_pure] at h
    obtain ⟨first, hfirst, x, -, thn, -, els, -, rfl⟩ := h
    exact ⟨first, hfirst, by simp⟩
  | cases i e arms =>
    obtain rfl : a = e := by simpa [Expr.operands] using ha
    simp only [check, ExprM.returns_bind, ExprM.returns_pure] at h
    obtain ⟨first, hfirst, -, -, -, -, -, -, -, -, rest, -, rfl⟩ := h
    exact ⟨first, hfirst, by simp⟩
  | call i f receiver args =>
    simp only [check, ExprM.returns_bind, ExprM.returns_pure] at h
    obtain ⟨first, hfirst, rest, hrest, node, -, rfl⟩ := h
    rcases List.mem_append.1 ha with ha | ha
    · exact ⟨first, check?_toList hfirst ha, by simp⟩
    · obtain ⟨ts, hts, hsub⟩ := checkList_mem hrest ha
      exact ⟨ts, hts, List.Subset.trans hsub (by simp)⟩

/-- A part of an expression is checked under the frames that stand before it. -/
theorem check_inner {e a : Source.Expr} {w : View} {fs : List Frame} (hi : Inner env v e w fs a)
    {ss : List IL.Stmt} (h : (check v limits frames e).Returns env ss) :
    ∃ ts, (check w limits (fs ++ frames) a).Returns env ts ∧ ts ⊆ ss := by
  cases hi with
  | operand ha => exact check_operand ha h
  | old => exact ⟨ss, h, by simp⟩
  | second hg hx =>
    simp only [check, hg, ExprM.returns_bind, ExprM.returns_pure] at h
    obtain ⟨first, -, x, hx', rest, hrest, rfl⟩ := h
    cases hx.unique hx'
    exact ⟨rest, hrest, by simp⟩
  | quantRange hf =>
    simp only [check, ExprM.returns_bind, ExprM.returns_pure] at h
    obtain ⟨f, hf', first, hfirst, x, -, rest, -, rfl⟩ := h
    cases hf.unique hf'
    exact ⟨first, hfirst, by simp⟩
  | quantBody hf =>
    simp only [check, ExprM.returns_bind] at h
    obtain ⟨f, hf', h⟩ := h
    cases hf.unique hf'
    exact ⟨ss, h, by simp⟩
  | quantRanged hf hx =>
    simp only [check, ExprM.returns_bind, ExprM.returns_pure] at h
    obtain ⟨f, hf', first, -, x, hx', rest, hrest, rfl⟩ := h
    cases hf.unique hf'
    cases hx.unique hx'
    exact ⟨rest, hrest, by simp⟩
  | @setRange i bs r t f hf =>
    simp only [check, ExprM.returns_bind] at h
    obtain ⟨f', hf', first, hfirst, h⟩ := h
    cases hf.unique hf'
    refine ⟨first, hfirst, ?_⟩
    cases t with
    | none => exact (ExprM.returns_pure.1 h) ▸ List.Subset.refl _
    | some t =>
      simp only [ExprM.returns_bind, ExprM.returns_pure] at h
      obtain ⟨x, -, rest, -, rfl⟩ := h
      simp
  | setTerm hf hx =>
    simp only [check, ExprM.returns_bind, ExprM.returns_pure] at h
    obtain ⟨f, hf', first, -, x, hx', rest, hrest, rfl⟩ := h
    cases hf.unique hf'
    cases hx.unique hx'
    exact ⟨rest, hrest, by simp⟩
  | mapRange hf =>
    simp only [check, ExprM.returns_bind, ExprM.returns_pure] at h
    obtain ⟨f, hf', first, hfirst, x, -, rest, -, rfl⟩ := h
    cases hf.unique hf'
    exact ⟨first, hfirst, by simp⟩
  | mapTerm hf hx =>
    simp only [check, ExprM.returns_bind, ExprM.returns_pure] at h
    obtain ⟨f, hf', first, -, x, hx', rest, hrest, rfl⟩ := h
    cases hf.unique hf'
    cases hx.unique hx'
    exact ⟨rest, hrest, by simp⟩
  | letBody hbs =>
    simp only [check, ExprM.returns_bind, ExprM.returns_pure] at h
    obtain ⟨first, -, values, hvalues, rest, hrest, rfl⟩ := h
    cases hbs.unique hvalues
    exact ⟨rest, hrest, by simp⟩
  | thn hx =>
    simp only [check, ExprM.returns_bind, ExprM.returns_pure] at h
    obtain ⟨first, -, x, hx', thn, hthn, els, -, rfl⟩ := h
    cases hx.unique hx'
    exact ⟨thn, hthn, by simp⟩
  | els hx =>
    simp only [check, ExprM.returns_bind, ExprM.returns_pure] at h
    obtain ⟨first, -, x, hx', thn, -, els, hels, rfl⟩ := h
    cases hx.unique hx'
    exact ⟨els, hels, by simp⟩
  | @arm i e arms dt args d c s p b bindings ht hd hc hs hfind hbs =>
    simp only [check, ExprM.returns_bind, ExprM.returns_pure, ExprM.returns_datatype,
      ExprM.returns_options, returns_matchedDatatype] at h
    obtain ⟨first, -, dt', ⟨args', ht'⟩, s', hs', d', hd', _, rfl, cases, hcases, rfl⟩ := h
    cases ht.symm.trans ht'
    cases hs.unique hs'
    cases hd.symm.trans hd'
    obtain ⟨ts, hts, harm⟩ := hcases.exists_of_mem hc
    rw [checkArms_eq, List.find?_map] at harm
    simp only [Function.comp_def, hfind, Option.map_some, ExprM.returns_bind] at harm
    obtain ⟨bindings', hbs', harm⟩ := harm
    cases hbs.unique hbs'
    exact ⟨ts, harm, fun t ht => by simp; exact .inr ⟨ts, hts, ht⟩⟩

/-- Whatever the evaluation of an expression comes to is checked under the conditions that reach
it. -/
theorem check_evaluates {e n : Source.Expr} {w : View} {fs : List Frame}
    (hn : Evaluates env v e w fs n) {ss : List IL.Stmt}
    (h : (check v limits frames e).Returns env ss) :
    ∃ ts, (check w limits (fs ++ frames) n).Returns env ts ∧ ts ⊆ ss := by
  induction hn generalizing frames ss with
  | here => exact ⟨ss, h, by simp⟩
  | inside hi _ ih =>
    obtain ⟨ts, hts, hsub⟩ := check_inner hi h
    obtain ⟨us, hus, hsub'⟩ := ih hts
    exact ⟨us, by simpa using hus, List.Subset.trans hsub' hsub⟩

end

end ContractLowering
