import ContractLowering.Lowering.Definedness
import ContractLowering.Proofs.IL.Build
import ContractLowering.Proofs.IL.Execution
import ContractLowering.Proofs.Lowering.ExprReturns
import ContractLowering.Proofs.Source.Recursor

/-!
# The two forms of definedness agree

`check` carries the frames that reach an operation and wraps each of its conditions in all of
them at the end. `collect` wraps from the inside out and drops a formula as soon as it is
trivial. They agree because wrapping keeps a trivial formula trivial (`Frame.wrapAll_tt`), so
dropping early and dropping late leave the same formulas (`Frame.survivors_under`).

`Agree` says this of two traversals. It is closed under the ways in which traversals are put
together, and `check_agree` is the induction that follows them through an expression.
-/

namespace ContractLowering

open IL Source

/-! ## Trivial formulas under frames -/

namespace Frame

variable {auto : Bool}

/-- Nothing is left to show of a trivial formula under a frame. -/
@[simp] theorem wrap_tt (frame : Frame) : frame.wrap auto .tt = .tt := by
  cases frame with
  | guard cond => simp [wrap]
  | bind bindings => simp [wrap]
  | forAll binders wheres => simp [wrap]

@[simp] theorem wrapAll_tt (frames : List Frame) : wrapAll auto frames .tt = .tt := by
  induction frames with
  | nil => rfl
  | cons frame frames ih => simpa [wrapAll] using ih

@[simp] theorem wrapAll_cons (frame : Frame) (frames : List Frame) (e : IL.Expr) :
    wrapAll auto (frame :: frames) e = wrapAll auto frames (frame.wrap auto e) := rfl

@[simp] theorem wrapAll_nil : wrapAll auto [] = id := rfl

/-- What is left of formulas under frames when the trivial ones are dropped. -/
def survivors (auto : Bool) (frames : List Frame) (es : List IL.Expr) : List IL.Expr :=
  (es.map (wrapAll auto frames)).filter fun e => !e.isTrue

@[simp] theorem survivors_nil (frames : List Frame) : survivors auto frames [] = [] := rfl

@[simp] theorem survivors_append (frames : List Frame) (es fs : List IL.Expr) :
    survivors auto frames (es ++ fs) = survivors auto frames es ++ survivors auto frames fs := by
  simp [survivors]

/-- Dropping the trivial formulas early leaves the same ones. -/
@[simp] theorem survivors_filter (frames : List Frame) (es : List IL.Expr) :
    survivors auto frames (es.filter fun e => !e.isTrue) = survivors auto frames es := by
  induction es with
  | nil => rfl
  | cons e es ih =>
    cases h : e.isTrue with
    | true => rw [IL.Expr.isTrue_iff.1 h]; simpa [survivors] using ih
    | false =>
      simp only [survivors] at ih
      simp only [survivors, List.filter_cons, h, Bool.not_false, if_true, List.map_cons, ih]

/-- Formulas under a frame and then under the frames around it. -/
theorem survivors_under (frame : Frame) (frames : List Frame) (es : List IL.Expr) :
    survivors auto frames (frame.under auto es) = survivors auto (frame :: frames) es := by
  rw [under, survivors_filter, survivors, survivors, List.map_map]
  rfl

/-- Without frames only trivial formulas are lost, which a conjunction does not see. -/
theorem conj_survivors (es : List IL.Expr) : IL.Expr.conj (survivors auto [] es) = .conj es := by
  rw [survivors, wrapAll_nil, List.map_id, IL.Expr.conj_filter]

end Frame

/-! ## Agreement of two traversals -/

/-- Statements under frames are what is left of obligations, as assertions, and of facts, as
assumptions, each in their order. -/
structure Splits (auto : Bool) (frames : List Frame) (stmts : List IL.Stmt)
    (obligations facts : List IL.Expr) : Prop where
  asserted : IL.Stmt.asserted stmts = Frame.survivors auto frames obligations
  assumed : IL.Stmt.assumed stmts = Frame.survivors auto frames facts
  conditions : ∀ s ∈ stmts, s.isCondition = true

/-- A traversal that gives statements under frames agrees with one that gives formulas of either
kind: its statements are those formulas, and it gives some whenever the other one gives
obligations. Traversals are given by what they return. -/
structure Agree (auto : Bool) (checks : List Frame → List IL.Stmt → Prop)
    (collects : Collected → List IL.Expr → Prop) : Prop where
  splits : ∀ {frames stmts}, checks frames stmts →
    ∃ os fs, collects .obligations os ∧ collects .facts fs ∧ Splits auto frames stmts os fs
  returns : ∀ {os}, collects .obligations os → ∀ frames, ∃ stmts, checks frames stmts

namespace Agree

variable {auto : Bool} {checks checks' : List Frame → List IL.Stmt → Prop}
  {collects collects' : Collected → List IL.Expr → Prop}

/-- Agreement is about what is returned, however it is described. -/
theorem congr (h : Agree auto checks collects)
    (hs : ∀ frames stmts, checks' frames stmts ↔ checks frames stmts)
    (he : ∀ kind es, collects' kind es ↔ collects kind es) : Agree auto checks' collects' := by
  obtain rfl : checks' = checks := by funext frames stmts; exact propext (hs frames stmts)
  obtain rfl : collects' = collects := by funext kind es; exact propext (he kind es)
  exact h

/-- Traversals that give nothing. -/
theorem nil : Agree auto (fun _ stmts => stmts = []) (fun _ es => es = []) where
  splits := by
    rintro frames stmts rfl
    exact ⟨[], [], rfl, rfl, rfl, rfl, by simp⟩
  returns _ _ := ⟨[], rfl⟩

/-- One traversal after another. -/
theorem append (h : Agree auto checks collects) (h' : Agree auto checks' collects') :
    Agree auto (fun frames stmts => ∃ s, checks frames s ∧ ∃ t, checks' frames t ∧ stmts = s ++ t)
      (fun kind es => ∃ a, collects kind a ∧ ∃ b, collects' kind b ∧ es = a ++ b) where
  splits := by
    rintro frames stmts ⟨s, hs, t, ht, rfl⟩
    obtain ⟨os, fs, hos, hfs, hs⟩ := h.splits hs
    obtain ⟨os', fs', hos', hfs', ht⟩ := h'.splits ht
    refine ⟨_, _, ⟨os, hos, os', hos', rfl⟩, ⟨fs, hfs, fs', hfs', rfl⟩, ?_, ?_, ?_⟩
    · simp [hs.asserted, ht.asserted]
    · simp [hs.assumed, ht.assumed]
    · simp only [List.mem_append]
      rintro x (hx | hx)
      · exact hs.conditions x hx
      · exact ht.conditions x hx
  returns := by
    rintro _ ⟨a, ha, b, hb, rfl⟩ frames
    obtain ⟨s, hs⟩ := h.returns ha frames
    obtain ⟨t, ht⟩ := h'.returns hb frames
    exact ⟨_, s, hs, t, ht, rfl⟩

/-- A traversal under one more frame: one side carries the frame along, the other wraps its
formulas in it. -/
theorem under (frame : Frame) (h : Agree auto checks collects) :
    Agree auto (fun frames stmts => checks (frame :: frames) stmts)
      (fun kind es => ∃ a, collects kind a ∧ es = frame.under auto a) where
  splits := by
    intro frames stmts hs
    obtain ⟨os, fs, hos, hfs, hs⟩ := h.splits hs
    refine ⟨_, _, ⟨os, hos, rfl⟩, ⟨fs, hfs, rfl⟩, ?_, ?_, hs.conditions⟩
    · rw [Frame.survivors_under, hs.asserted]
    · rw [Frame.survivors_under, hs.assumed]
  returns := by
    rintro _ ⟨a, ha, rfl⟩ frames
    exact h.returns ha (frame :: frames)

/-- Traversals that depend on a value both of them compute. -/
theorem ofValue {α : Type} {P : α → Prop} {checks : α → List Frame → List IL.Stmt → Prop}
    {collects : α → Collected → List IL.Expr → Prop}
    (h : ∀ a, P a → Agree auto (checks a) (collects a)) :
    Agree auto (fun frames stmts => ∃ a, P a ∧ checks a frames stmts)
      (fun kind es => ∃ a, P a ∧ collects a kind es) where
  splits := by
    rintro frames stmts ⟨a, ha, hs⟩
    obtain ⟨os, fs, hos, hfs, hs⟩ := (h a ha).splits hs
    exact ⟨os, fs, ⟨a, ha, hos⟩, ⟨a, ha, hfs⟩, hs⟩
  returns := by
    rintro os ⟨a, ha, hos⟩ frames
    obtain ⟨stmts, hs⟩ := (h a ha).returns hos frames
    exact ⟨stmts, a, ha, hs⟩

/-- What a list gives is what its head gives followed by what its tail gives. -/
theorem exists_flatten_cons {α β : Type} {R : α → List β → Prop} {a : α} {l : List α}
    {bs : List β} :
    (∃ bss, List.Forall₂ R (a :: l) bss ∧ bs = bss.flatten) ↔
      ∃ b, R a b ∧ ∃ b', (∃ bss, List.Forall₂ R l bss ∧ b' = bss.flatten) ∧ bs = b ++ b' := by
  simp only [List.forall₂_cons_left_iff]
  constructor
  · rintro ⟨_, ⟨b, bss, hb, hbss, rfl⟩, rfl⟩
    exact ⟨b, hb, _, ⟨bss, hbss, rfl⟩, by simp⟩
  · rintro ⟨b, hb, _, ⟨bss, hbss, rfl⟩, rfl⟩
    exact ⟨_, ⟨b, bss, hb, hbss, rfl⟩, by simp⟩

/-- Traversals over the elements of a list. -/
theorem flatten {α : Type} {checks : α → List Frame → List IL.Stmt → Prop}
    {collects : α → Collected → List IL.Expr → Prop} (l : List α)
    (h : ∀ a ∈ l, Agree auto (checks a) (collects a)) :
    Agree auto
      (fun frames stmts => ∃ ss, List.Forall₂ (fun a s => checks a frames s) l ss ∧
        stmts = ss.flatten)
      (fun kind es => ∃ ess, List.Forall₂ (fun a e => collects a kind e) l ess ∧
        es = ess.flatten) := by
  induction l with
  | nil => exact nil.congr (by simp) (by simp)
  | cons a l ih =>
    have ha := h a (by simp)
    have hl := ih fun b hb => h b (by simp [hb])
    exact (ha.append hl).congr (fun _ _ => exists_flatten_cons) (fun _ _ => exists_flatten_cons)

end Agree

/-! ## Single operations -/

section

variable {env : Env}

/-- A call whose obligations can be said has its fact. -/
theorem canCallFact?_returns {v : View} {limits : Limits} {e : Source.Expr} {os : List Obligation}
    (h : (nodeObligations v limits e).Returns env os) :
    ∃ fact, (canCallFact? v e).Returns env fact := by
  cases e with
  | call i f receiver args =>
    simp only [nodeObligations, returns_ofCall, returns_calleeBindings] at h
    obtain ⟨callee, hcallee, _, _, _, _, _, ⟨recv, hrecv, rest, hrest, _⟩, _⟩ := h
    simp only [canCallFact?, ExprM.returns_bind, ExprM.returns_pure, returns_lowerCallArgs]
    exact ⟨_, _, ⟨callee, hcallee, recv, hrecv, rest, hrest, rfl⟩, rfl⟩
  | _ => exact ⟨none, rfl⟩

theorem asserted_assertUnder (auto : Bool) (frames : List Frame) (os : List Obligation) :
    IL.Stmt.asserted (os.flatMap (assertUnder auto frames)) =
      Frame.survivors auto frames (os.map (·.cond)) := by
  induction os with
  | nil => rfl
  | cons o os ih =>
    simp only [List.flatMap_cons, IL.Stmt.asserted_append, ih, assertUnder]
    cases h : (Frame.wrapAll auto frames o.cond).isTrue <;>
      simp [Frame.survivors, IL.Stmt.asserted, h]

theorem assumed_assumeUnder (auto : Bool) (frames : List Frame) (facts : List IL.Expr) :
    IL.Stmt.assumed (facts.flatMap (assumeUnder auto frames)) =
      Frame.survivors auto frames facts := by
  induction facts with
  | nil => rfl
  | cons fact facts ih =>
    simp only [List.flatMap_cons, IL.Stmt.assumed_append, ih, assumeUnder]
    cases h : (Frame.wrapAll auto frames fact).isTrue <;>
      simp [Frame.survivors, IL.Stmt.assumed, h]

theorem mem_assertUnder {auto : Bool} {frames : List Frame} {o : Obligation} {s : IL.Stmt}
    (h : s ∈ assertUnder auto frames o) : ∃ c, s = .assert o.msg c := by
  simp only [assertUnder] at h
  split at h
  · cases h
  · exact ⟨_, by simpa using h⟩

theorem mem_assumeUnder {auto : Bool} {frames : List Frame} {fact : IL.Expr} {s : IL.Stmt}
    (h : s ∈ assumeUnder auto frames fact) : ∃ c, s = .assume c := by
  simp only [assumeUnder] at h
  split at h
  · cases h
  · exact ⟨_, by simpa using h⟩

/-- The statements of obligations and facts under frames. -/
theorem splits_assert_assume (auto : Bool) (frames : List Frame) (os : List Obligation)
    (facts : List IL.Expr) :
    Splits auto frames
      (os.flatMap (assertUnder auto frames) ++ facts.flatMap (assumeUnder auto frames))
      (os.map (·.cond)) facts where
  asserted := by
    have none : IL.Stmt.asserted (facts.flatMap (assumeUnder auto frames)) = [] := by
      refine List.filterMap_eq_nil_iff.2 fun s hs => ?_
      obtain ⟨fact, _, hs⟩ := List.mem_flatMap.1 hs
      obtain ⟨c, rfl⟩ := mem_assumeUnder hs
      rfl
    rw [IL.Stmt.asserted_append, asserted_assertUnder, none, List.append_nil]
  assumed := by
    have none : IL.Stmt.assumed (os.flatMap (assertUnder auto frames)) = [] := by
      refine List.filterMap_eq_nil_iff.2 fun s hs => ?_
      obtain ⟨o, _, hs⟩ := List.mem_flatMap.1 hs
      obtain ⟨c, rfl⟩ := mem_assertUnder hs
      rfl
    rw [IL.Stmt.assumed_append, assumed_assumeUnder, none, List.nil_append]
  conditions := by
    intro s hs
    simp only [List.mem_append, List.mem_flatMap] at hs
    rcases hs with ⟨o, _, hs⟩ | ⟨fact, _, hs⟩
    · obtain ⟨c, rfl⟩ := mem_assertUnder hs; rfl
    · obtain ⟨c, rfl⟩ := mem_assumeUnder hs; rfl

/-- The two traversals agree on a single operation. -/
theorem checkNode_agree (v : View) (e : Source.Expr) :
    Agree env.context.options.autoTriggers
      (fun frames stmts => (checkNode v {} frames e).Returns env stmts)
      (fun kind es => (collectNode kind v e).Returns env es) where
  splits := by
    intro frames stmts h
    simp only [checkNode, ExprM.returns_bind, ExprM.returns_options, ExprM.returns_pure] at h
    obtain ⟨_, rfl, os, hos, fact, hfact, rfl⟩ := h
    obtain ⟨asserted, assumed, conditions⟩ :=
      splits_assert_assume env.context.options.autoTriggers frames os fact.toList
    refine ⟨(os.map (·.cond)).filter (!·.isTrue), fact.toList.filter (!·.isTrue), ?_, ?_, ?_, ?_,
      conditions⟩
    · simp only [collectNode, ExprM.returns_bind, ExprM.returns_pure]
      exact ⟨os, hos, _, rfl, rfl⟩
    · simp only [collectNode, ExprM.returns_bind, ExprM.returns_pure]
      exact ⟨fact, hfact, _, rfl, rfl⟩
    · rw [Frame.survivors_filter, asserted]
    · rw [Frame.survivors_filter, assumed]
  returns := by
    intro os h frames
    simp only [collectNode, ExprM.returns_bind, ExprM.returns_pure] at h
    obtain ⟨os, hos, _, rfl, rfl⟩ := h
    obtain ⟨fact, hfact⟩ := canCallFact?_returns hos
    simp only [checkNode, ExprM.returns_bind, ExprM.returns_options, ExprM.returns_pure]
    exact ⟨_, _, rfl, os, hos, fact, hfact, rfl⟩

/-! ## Whole expressions -/

/-- The two traversals agree on an expression in every view. -/
def Agrees (env : Env) (e : Source.Expr) : Prop :=
  ∀ v : View, Agree env.context.options.autoTriggers
    (fun frames stmts => (check v {} frames e).Returns env stmts)
    (fun kind es => (collect kind v e).Returns env es)

theorem check?_agree (v : View) {o : Option Source.Expr} (h : ∀ e ∈ o, Agrees env e) :
    Agree env.context.options.autoTriggers
      (fun frames stmts => (check? v {} frames o).Returns env stmts)
      (fun kind es => (collect? kind v o).Returns env es) := by
  cases o with
  | none => exact Agree.nil.congr (by simp [check?]) (by simp [collect?])
  | some e => exact (h e rfl v).congr (by simp [check?]) (by simp [collect?])

theorem checkList_agree (v : View) {l : List Source.Expr} (h : ∀ e ∈ l, Agrees env e) :
    Agree env.context.options.autoTriggers
      (fun frames stmts => (checkList v {} frames l).Returns env stmts)
      (fun kind es => (collectList kind v l).Returns env es) := by
  induction l with
  | nil => exact Agree.nil.congr (by simp [checkList]) (by simp [collectList])
  | cons e l ih =>
    have hl := ih fun x hx => h x (by simp [hx])
    exact ((h e (by simp) v).append hl).congr (by simp [checkList]) (by simp [collectList])

theorem checkEntries_agree (v : View) {l : List (Source.Expr × Source.Expr)}
    (h : ∀ p ∈ l, Agrees env p.1 ∧ Agrees env p.2) :
    Agree env.context.options.autoTriggers
      (fun frames stmts => (checkEntries v {} frames l).Returns env stmts)
      (fun kind es => (collectEntries kind v l).Returns env es) := by
  induction l with
  | nil => exact Agree.nil.congr (by simp [checkEntries]) (by simp [collectEntries])
  | cons p l ih =>
    obtain ⟨k, e⟩ := p
    obtain ⟨hk, he⟩ := h (k, e) (by simp)
    have hl := ih fun x hx => h x (by simp [hx])
    exact ((hk v).append ((he v).append hl)).congr (by simp [checkEntries, and_assoc])
      (by simp [collectEntries, and_assoc])

theorem checkBindings_agree (v : View) {l : List (String × Source.Expr)}
    (h : ∀ p ∈ l, Agrees env p.2) :
    Agree env.context.options.autoTriggers
      (fun frames stmts => (checkBindings v {} frames l).Returns env stmts)
      (fun kind es => (collectBindings kind v l).Returns env es) := by
  induction l with
  | nil => exact Agree.nil.congr (by simp [checkBindings]) (by simp [collectBindings])
  | cons p l ih =>
    have hl := ih fun x hx => h x (by simp [hx])
    exact ((h p (by simp) v).append hl).congr (by simp [checkBindings])
      (by simp [collectBindings])

/-- A range under bound variables and what is evaluated where the range holds. -/
theorem ranged_agree (v : View) (bs : List Source.Binder) {r t : Source.Expr}
    (hr : Agrees env r) (ht : Agrees env t) :
    Agree env.context.options.autoTriggers
      (fun frames stmts => ∃ frame, (Frame.ofBinders v bs).Returns env frame ∧
        ∃ x, (lowerExpr v r).Returns env x ∧
        ∃ s, (check v {} (frame :: frames) r).Returns env s ∧
        ∃ s', (check v {} (.guard x :: frame :: frames) t).Returns env s' ∧ stmts = s ++ s')
      (fun kind es => ∃ frame, (Frame.ofBinders v bs).Returns env frame ∧
        ∃ x, (lowerExpr v r).Returns env x ∧
        ∃ a, (∃ b, (collect kind v r).Returns env b ∧
          ∃ c, (∃ d, (collect kind v t).Returns env d ∧
            c = (Frame.guard x).under env.context.options.autoTriggers d) ∧ a = b ++ c) ∧
          es = frame.under env.context.options.autoTriggers a) :=
  .ofValue fun frame _ => .ofValue fun x _ => ((hr v).append ((ht v).under (.guard x))).under frame

/-- What `check` gives for a constructor, given its match case if there is one. -/
def ArmChecks (env : Env) (v : View) (d : Datatype) (dt : Path) (s : IL.Expr) (span : Span)
    (ctor : String) (found : Option (Pattern × Source.Expr)) (frames : List Frame)
    (stmts : List IL.Stmt) : Prop :=
  match found with
  | none => stmts = assertUnder env.context.options.autoTriggers frames (missingCase span ctor)
  | some p => ∃ bs, (caseBindings d dt p.1 s).Returns env bs ∧
      (check v {} (.bind bs :: frames) p.2).Returns env stmts

/-- What `collect` gives for a constructor, given its match case if there is one. -/
def ArmCollects (env : Env) (v : View) (d : Datatype) (dt : Path) (s : IL.Expr) (span : Span)
    (ctor : String) (found : Option (Pattern × Source.Expr)) (kind : Collected)
    (es : List IL.Expr) : Prop :=
  match found with
  | none => es = collectMissing kind span ctor
  | some p => ∃ bs, (caseBindings d dt p.1 s).Returns env bs ∧
      ∃ a, (collect kind v p.2).Returns env a ∧
        es = (Frame.bind bs).under env.context.options.autoTriggers a

/-- The two traversals agree on a constructor of a match. -/
theorem arm_agree (v : View) (d : Datatype) (dt : Path) (s : IL.Expr) (span : Span)
    (ctor : String) {arms : List (Pattern × Source.Expr)} (h : ∀ p ∈ arms, Agrees env p.2) :
    Agree env.context.options.autoTriggers
      (ArmChecks env v d dt s span ctor (arms.find? (·.1.ctor == ctor)))
      (ArmCollects env v d dt s span ctor (arms.find? (·.1.ctor == ctor))) := by
  cases hp : arms.find? (·.1.ctor == ctor) with
  | none =>
    refine ⟨?_, fun _ frames => ⟨_, rfl⟩⟩
    rintro frames stmts rfl
    refine ⟨_, _, rfl, rfl, ?_⟩
    simpa [collectMissing] using splits_assert_assume env.context.options.autoTriggers frames
      [missingCase span ctor] []
  | some p =>
    exact .ofValue fun bs _ => (h p (List.mem_of_find?_eq_some hp) v).under (.bind bs)

theorem checkArms_eq (v : View) (limits : Limits) (arms : List (Pattern × Source.Expr)) :
    checkArms v limits arms = arms.map fun p => (p.1, fun frames => check v limits frames p.2) := by
  induction arms with
  | nil => rfl
  | cons p arms ih => simp [checkArms, ih]

theorem collectArms_eq (kind : Collected) (v : View) (arms : List (Pattern × Source.Expr)) :
    collectArms kind v arms = arms.map fun p => (p.1, collect kind v p.2) := by
  induction arms with
  | nil => rfl
  | cons p arms ih => simp [collectArms, ih]

/-- The part of `check` for a constructor, given the traversal of its match case if there is
one. -/
def checkArm (auto : Bool) (d : Datatype) (dt : Path) (s : IL.Expr) (span : Span) (ctor : String)
    (frames : List Frame) :
    Option (Pattern × (List Frame → ExprM (List IL.Stmt))) → ExprM (List IL.Stmt)
  | none => pure (assertUnder auto frames (missingCase span ctor))
  | some (p, body) => do
    let bindings ← caseBindings d dt p s
    body (.bind bindings :: frames)

theorem check_cases (v : View) (limits : Limits) (frames : List Frame) (i : Info)
    (e : Source.Expr) (arms : List (Pattern × Source.Expr)) :
    check v limits frames (.cases i e arms) = (do
      let first ← check v limits frames e
      let dt ← matchedDatatype e.typ
      let s ← lowerExpr v e
      let d ← ExprM.datatype dt
      let options ← ExprM.options
      let cases ← d.ctors.mapM fun c =>
        checkArm options.autoTriggers d dt s i.span c.name
          (.guard (.app (Naming.isCtor dt c.name) [s]) :: frames)
          ((checkArms v limits arms).find? (·.1.ctor == c.name))
      return first ++ cases.flatten) := by
  rw [check]
  rfl

theorem returns_checkArm {v : View} {d : Datatype} {dt : Path} {s : IL.Expr} {span : Span}
    {ctor : String} {frames : List Frame} {arms : List (Pattern × Source.Expr)}
    {stmts : List IL.Stmt} :
    (checkArm env.context.options.autoTriggers d dt s span ctor frames
      ((checkArms v {} arms).find? (·.1.ctor == ctor))).Returns env stmts ↔
      ArmChecks env v d dt s span ctor (arms.find? (·.1.ctor == ctor)) frames stmts := by
  rw [checkArms_eq, List.find?_map]
  cases h : arms.find? (·.1.ctor == ctor) <;> simp [ArmChecks, checkArm, Function.comp_def, h]

/-- The part of `collect` for a constructor, given what is collected from its match case if there
is one. -/
def collectArm (auto : Bool) (kind : Collected) (d : Datatype) (dt : Path) (s : IL.Expr)
    (span : Span) (ctor : String) (test : Frame) :
    Option (Pattern × ExprM (List IL.Expr)) → ExprM (List IL.Expr)
  | none => pure (test.under auto (collectMissing kind span ctor))
  | some (p, body) => do
    let bindings ← caseBindings d dt p s
    return test.under auto ((Frame.bind bindings).under auto (← body))

theorem collect_cases (kind : Collected) (v : View) (i : Info) (e : Source.Expr)
    (arms : List (Pattern × Source.Expr)) :
    collect kind v (.cases i e arms) = (do
      let options ← ExprM.options
      let dt ← matchedDatatype e.typ
      let s ← lowerExpr v e
      let first ← collect kind v e
      let d ← ExprM.datatype dt
      let cases ← d.ctors.mapM fun c =>
        collectArm options.autoTriggers kind d dt s i.span c.name
          (.guard (.app (Naming.isCtor dt c.name) [s]))
          ((collectArms kind v arms).find? (·.1.ctor == c.name))
      return first ++ cases.flatten) := by
  rw [collect]
  rfl

theorem returns_collectArm {kind : Collected} {v : View} {d : Datatype} {dt : Path} {s : IL.Expr}
    {span : Span} {ctor : String} {test : Frame} {arms : List (Pattern × Source.Expr)}
    {es : List IL.Expr} :
    (collectArm env.context.options.autoTriggers kind d dt s span ctor test
      ((collectArms kind v arms).find? (·.1.ctor == ctor))).Returns env es ↔
      ∃ a, ArmCollects env v d dt s span ctor (arms.find? (·.1.ctor == ctor)) kind a ∧
        es = test.under env.context.options.autoTriggers a := by
  rw [collectArms_eq, List.find?_map]
  cases h : arms.find? (·.1.ctor == ctor) with
  | none => simp [ArmCollects, collectArm, Function.comp_def, h]
  | some p =>
    simp only [ArmCollects, collectArm, Function.comp_def, h, Option.map_some, ExprM.returns_bind,
      ExprM.returns_pure]
    constructor
    · rintro ⟨bs, hbs, a, ha, hes⟩
      exact ⟨_, ⟨bs, hbs, a, ha, rfl⟩, hes⟩
    · rintro ⟨_, ⟨bs, hbs, a, ha, rfl⟩, hes⟩
      exact ⟨bs, hbs, a, ha, hes⟩

/-- A match is checked constructor by constructor, each under the test for it. -/
theorem returns_check_cases {v : View} {frames : List Frame} {i : Info} {e : Source.Expr}
    {arms : List (Pattern × Source.Expr)} {stmts : List IL.Stmt} :
    (check v {} frames (.cases i e arms)).Returns env stmts ↔
      ∃ dt, (matchedDatatype e.typ).Returns env dt ∧
      ∃ s, (lowerExpr v e).Returns env s ∧
      ∃ d, env.context.datatype dt = .ok d ∧
      ∃ first, (check v {} frames e).Returns env first ∧
      ∃ rest, (∃ cases, List.Forall₂ (fun c stmts =>
          ArmChecks env v d dt s i.span c.name (arms.find? (·.1.ctor == c.name))
            (.guard (.app (Naming.isCtor dt c.name) [s]) :: frames) stmts) d.ctors cases ∧
          rest = cases.flatten) ∧
        stmts = first ++ rest := by
  simp only [check_cases, ExprM.returns_bind, ExprM.returns_pure, ExprM.returns_options,
    ExprM.returns_datatype, ExprM.returns_mapM, ← returns_checkArm]
  constructor
  · rintro ⟨first, hfirst, dt, hdt, s, hs, d, hd, _, rfl, cases, hcases, rfl⟩
    exact ⟨dt, hdt, s, hs, d, hd, first, hfirst, _, ⟨cases, hcases, rfl⟩, rfl⟩
  · rintro ⟨dt, hdt, s, hs, d, hd, first, hfirst, _, ⟨cases, hcases, rfl⟩, rfl⟩
    exact ⟨first, hfirst, dt, hdt, s, hs, d, hd, _, rfl, cases, hcases, rfl⟩

/-- The formulas of a match, constructor by constructor. -/
theorem returns_collect_cases {kind : Collected} {v : View} {i : Info} {e : Source.Expr}
    {arms : List (Pattern × Source.Expr)} {es : List IL.Expr} :
    (collect kind v (.cases i e arms)).Returns env es ↔
      ∃ dt, (matchedDatatype e.typ).Returns env dt ∧
      ∃ s, (lowerExpr v e).Returns env s ∧
      ∃ d, env.context.datatype dt = .ok d ∧
      ∃ first, (collect kind v e).Returns env first ∧
      ∃ rest, (∃ cases, List.Forall₂ (fun c es => ∃ a,
          ArmCollects env v d dt s i.span c.name (arms.find? (·.1.ctor == c.name)) kind a ∧
          es = (Frame.guard (.app (Naming.isCtor dt c.name) [s])).under
            env.context.options.autoTriggers a) d.ctors cases ∧
          rest = cases.flatten) ∧
        es = first ++ rest := by
  simp only [collect_cases, ExprM.returns_bind, ExprM.returns_pure, ExprM.returns_options,
    ExprM.returns_datatype, ExprM.returns_mapM, ← returns_collectArm]
  constructor
  · rintro ⟨_, rfl, dt, hdt, s, hs, first, hfirst, d, hd, cases, hcases, rfl⟩
    exact ⟨dt, hdt, s, hs, d, hd, first, hfirst, _, ⟨cases, hcases, rfl⟩, rfl⟩
  · rintro ⟨dt, hdt, s, hs, d, hd, first, hfirst, _, ⟨cases, hcases, rfl⟩, rfl⟩
    exact ⟨_, rfl, dt, hdt, s, hs, first, hfirst, d, hd, cases, hcases, rfl⟩

/-- `check` and `collect` agree on every expression. -/
theorem check_agree (e : Source.Expr) : Agrees env e := by
  induction e using Source.Expr.recData with
  | bool i b => exact fun v => Agree.nil.congr (by simp [check]) (by simp [collect])
  | int i n => exact fun v => Agree.nil.congr (by simp [check]) (by simp [collect])
  | null i => exact fun v => Agree.nil.congr (by simp [check]) (by simp [collect])
  | var i x => exact fun v => Agree.nil.congr (by simp [check]) (by simp [collect])
  | this i => exact fun v => Agree.nil.congr (by simp [check]) (by simp [collect])
  | field i e f ih =>
    exact fun v => ((ih v).append (checkNode_agree v (.field i e f))).congr
      (by simp [check]) (by simp [collect])
  | index i a b iha ihb =>
    exact fun v => ((iha v).append ((ihb v).append (checkNode_agree v (.index i a b)))).congr
      (by simp [check, and_assoc]) (by simp [collect, and_assoc])
  | slice i e lo hi ih ihlo ihhi =>
    exact fun v => ((ih v).append ((check?_agree v ihlo).append ((check?_agree v ihhi).append
      (checkNode_agree v (.slice i e lo hi))))).congr
        (by simp [check, and_assoc]) (by simp [collect, and_assoc])
  | update i a b c iha ihb ihc =>
    exact fun v => ((iha v).append ((ihb v).append ((ihc v).append
      (checkNode_agree v (.update i a b c))))).congr
        (by simp [check, and_assoc]) (by simp [collect, and_assoc])
  | arrayLength i e ih =>
    exact fun v => ((ih v).append (checkNode_agree v (.arrayLength i e))).congr
      (by simp [check]) (by simp [collect])
  | display i kind es ih =>
    exact fun v => (checkList_agree v ih).congr (by simp [check]) (by simp [collect])
  | mapDisplay i kvs ih =>
    exact fun v => (checkEntries_agree v ih).congr (by simp [check]) (by simp [collect])
  | ctor i d c es ih =>
    exact fun v => ((checkList_agree v ih).append (checkNode_agree v (.ctor i d c es))).congr
      (by simp [check]) (by simp [collect])
  | destruct i e d c f ih =>
    exact fun v => ((ih v).append (checkNode_agree v (.destruct i e d c f))).congr
      (by simp [check]) (by simp [collect])
  | isCtor i e d c ih => exact fun v => (ih v).congr (by simp [check]) (by simp [collect])
  | old i e ih => exact fun v => (ih v.old).congr (by simp [check]) (by simp [collect])
  | fresh i e ih => exact fun v => (ih v).congr (by simp [check]) (by simp [collect])
  | unary i op e ih => exact fun v => (ih v).congr (by simp [check]) (by simp [collect])
  | binary i op a b iha ihb =>
    intro v
    cases h : guardOfFirst? op with
    | none =>
      exact ((iha v).append ((ihb v).append (checkNode_agree v (.binary i op a b)))).congr
        (by simp [check, h, and_assoc]) (by simp [collect, h, and_assoc])
    | some guard =>
      have key : Agree env.context.options.autoTriggers _ _ :=
        .ofValue fun x (_ : (lowerExpr v a).Returns env x) =>
          (iha v).append ((ihb v).under (.guard (guard x)))
      refine key.congr (fun frames stmts => ?_) (fun kind es => ?_)
      · simp only [check, h, ExprM.returns_bind, ExprM.returns_pure]
        grind
      · simp only [collect, h, ExprM.returns_bind, ExprM.returns_pure, ExprM.returns_options]
        grind
  | quant i q bs r b ts ind ihr ihb iht =>
    intro v
    cases r with
    | none =>
      have key : Agree env.context.options.autoTriggers _ _ :=
        .ofValue fun frame (_ : (Frame.ofBinders v bs).Returns env frame) => (ihb v).under frame
      refine key.congr (fun frames stmts => ?_) (fun kind es => ?_)
      · simp only [check, ExprM.returns_bind]
      · simp only [collect, ExprM.returns_bind, ExprM.returns_pure, ExprM.returns_options]
        grind
    | some r =>
      refine (ranged_agree v bs (ihr r rfl) ihb).congr (fun frames stmts => ?_) (fun kind es => ?_)
      · simp only [check, ExprM.returns_bind, ExprM.returns_pure]
        grind
      · simp only [collect, ExprM.returns_bind, ExprM.returns_pure, ExprM.returns_options]
        grind
  | setComp i bs r t ihr iht =>
    intro v
    cases t with
    | none =>
      have key : Agree env.context.options.autoTriggers _ _ :=
        .ofValue fun frame (_ : (Frame.ofBinders v bs).Returns env frame) => (ihr v).under frame
      refine key.congr (fun frames stmts => ?_) (fun kind es => ?_)
      · simp [check]
      · simp only [collect, ExprM.returns_bind, ExprM.returns_pure, ExprM.returns_options]
        grind
    | some t =>
      refine (ranged_agree v bs ihr (iht t rfl)).congr (fun frames stmts => ?_) (fun kind es => ?_)
      · simp only [check, ExprM.returns_bind, ExprM.returns_pure]
        grind
      · simp only [collect, ExprM.returns_bind, ExprM.returns_pure, ExprM.returns_options]
        grind
  | mapComp i b r t ihr iht =>
    intro v
    refine (ranged_agree v [b] ihr iht).congr (fun frames stmts => ?_) (fun kind es => ?_)
    · simp only [check, ExprM.returns_bind, ExprM.returns_pure]
      grind
    · simp only [collect, ExprM.returns_bind, ExprM.returns_pure, ExprM.returns_options]
      grind
  | letIn i bs b ihbs ihb =>
    intro v
    have key : Agree env.context.options.autoTriggers _ _ :=
      .ofValue fun values (_ : (lowerBindings v bs).Returns env values) =>
        (checkBindings_agree v ihbs).append ((ihb v).under (.bind values))
    refine key.congr (fun frames stmts => ?_) (fun kind es => ?_)
    · simp only [check, ExprM.returns_bind, ExprM.returns_pure]
      grind
    · simp only [collect, ExprM.returns_bind, ExprM.returns_pure, ExprM.returns_options]
      grind
  | ite i c a b ihc iha ihb =>
    intro v
    have key : Agree env.context.options.autoTriggers _ _ :=
      .ofValue fun x (_ : (lowerExpr v c).Returns env x) =>
        (ihc v).append (((iha v).under (.guard x)).append ((ihb v).under (.guard x.neg)))
    refine key.congr (fun frames stmts => ?_) (fun kind es => ?_)
    · simp only [check, ExprM.returns_bind, ExprM.returns_pure]
      grind
    · simp only [collect, ExprM.returns_bind, ExprM.returns_pure, ExprM.returns_options]
      grind
  | cases i e arms ihe iharms =>
    intro v
    have key : Agree env.context.options.autoTriggers _ _ :=
      .ofValue fun dt (_ : (matchedDatatype e.typ).Returns env dt) =>
        .ofValue fun s (_ : (lowerExpr v e).Returns env s) =>
          .ofValue fun d (_ : env.context.datatype dt = .ok d) =>
            (ihe v).append (Agree.flatten d.ctors fun c _ =>
              (arm_agree v d dt s i.span c.name iharms).under
                (.guard (.app (Naming.isCtor dt c.name) [s])))
    exact key.congr (fun _ _ => returns_check_cases) (fun _ _ => returns_collect_cases)
  | call i f r es ihr ihes =>
    exact fun v => ((check?_agree v ihr).append ((checkList_agree v ihes).append
      (checkNode_agree v (.call i f r es)))).congr
        (by simp [check, and_assoc]) (by simp [collect, and_assoc])

/-- Statements that check an expression give the formulas of the other form. -/
theorem definedness_splits {v : View} {e : Source.Expr} {stmts : List IL.Stmt}
    (h : (definedness v {} e).Returns env stmts) :
    (isTotal v e).Returns env (.conj (IL.Stmt.asserted stmts)) ∧
      (canCall v e).Returns env (.conj (IL.Stmt.assumed stmts)) ∧
      ∀ s ∈ stmts, s.isCondition = true := by
  obtain ⟨os, fs, hos, hfs, hsplit⟩ := (check_agree e v).splits h
  refine ⟨?_, ?_, hsplit.conditions⟩
  · simp only [isTotal, ExprM.returns_bind, ExprM.returns_pure, hsplit.asserted,
      Frame.conj_survivors]
    exact ⟨os, hos, rfl⟩
  · simp only [canCall, ExprM.returns_bind, ExprM.returns_pure, hsplit.assumed,
      Frame.conj_survivors]
    exact ⟨fs, hfs, rfl⟩

/-- The two forms of definedness agree on every expression. The formula that says an expression is
defined can be given exactly if the statements that check it can, and it is the conjunction of the
conditions they assert. The formula of its call facts is the conjunction of the conditions they
assume, and they do nothing but assert and assume. -/
theorem definedness_agrees (env : Env) (v : View) (e : Source.Expr) :
    (∀ total, (isTotal v e).Returns env total ↔
      ∃ stmts, (definedness v {} e).Returns env stmts ∧
        total = .conj (IL.Stmt.asserted stmts)) ∧
    ∀ stmts, (definedness v {} e).Returns env stmts →
      (canCall v e).Returns env (.conj (IL.Stmt.assumed stmts)) ∧
      ∀ s ∈ stmts, s.isCondition = true := by
  refine ⟨fun total => ⟨fun ht => ?_, ?_⟩, fun stmts hs => (definedness_splits hs).2⟩
  · have hc := ht
    simp only [isTotal, ExprM.returns_bind, ExprM.returns_pure] at hc
    obtain ⟨os, hos, -⟩ := hc
    obtain ⟨stmts, hs⟩ := (check_agree e v).returns hos []
    exact ⟨stmts, hs, ht.unique (definedness_splits hs).1⟩
  · rintro ⟨stmts, hs, rfl⟩
    exact (definedness_splits hs).1

/-- A call of a function on a quotient, guarded by the test that makes both defined. -/
theorem definedness_agrees_guarded_call :
    let f : Function := { (default : Function) with name := ⟨"M", ["f"]⟩, params := [("n", .int)] }
    let env : Env := { context := { functions := [f] } }
    let x := Source.Expr.mkVar default "x" .int
    let quotient := Source.Expr.binary ⟨default, .int⟩ .div (.mkInt default 1) x
    let e := Source.Expr.mkRel default .implies (.mkRel default .ne x (.mkInt default 0))
      (.call ⟨default, .bool⟩ f.name none [quotient])
    let v : View := { heap := .var "$Heap", oldHeap := .old "$Heap" }
    let nonzero := IL.Expr.ne (.var "x") (.nat 0)
    let obligation := IL.Expr.imp nonzero nonzero
    let fact := IL.Expr.imp nonzero
      (.app "canCall%M.f" [.binary .div (.nat 1) (.var "x")])
    (definedness v {} e).Returns env
        [.assert (.error "possible division by zero" default) obligation, .assume fact] ∧
      (isTotal v e).Returns env obligation ∧ (canCall v e).Returns env fact := by
  intro f env x quotient e v nonzero obligation fact
  have h : (definedness v {} e).Returns env
      [.assert (.error "possible division by zero" default) obligation, .assume fact] := rfl
  exact ⟨h, ((definedness_agrees env v e).1 _).2 ⟨_, h, rfl⟩,
    ((definedness_agrees env v e).2 _ h).1⟩

end

end ContractLowering
