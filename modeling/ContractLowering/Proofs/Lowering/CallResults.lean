import ContractLowering.Proofs.Lowering.Assignments

/-!
# Results of calls

The results of a call are stored in its targets one after the other, from the locals that receive
them. Nothing compares the targets, so the order is that of the targets: a variable that occurs twice
holds the last result (`results_order_matters`). Where no variable occurs twice and targets that are
one location receive the same value, every order leaves the same (`results_in_any_order`).
-/

namespace ContractLowering

open IL Source

/-- The stores of results in targets. -/
def resultStores (targets : List Target) (results : List String) (outs : List Source.Binder) :
    List Store :=
  ((targets.zip results).zip outs).map fun p =>
    ⟨default, p.1.1, Boxing.convert p.2.2 p.1.1.typ (.var p.1.2)⟩

/-- The code of a call: it evaluates the targets, calls the procedure with the arguments, and stores
the results. -/
structure CallCode (c : Context) (v : View) (s : Progress) (m : Path) (outs : List Lhs)
    (ss : List IL.Stmt) (s' : Progress) where
  callee : Method
  targets : List Target
  /-- The locals that receive the results. -/
  results : List String
  /-- The states in which the arguments are passed, the results are received and stored. -/
  (s₁ s₂ s₃ : Progress)
  kind : ProcKind
  values : List IL.Expr
  (parts passed code : List IL.Stmt)
  found : c.method m = .ok callee
  evaluates : (outs.mapM (Target.ofLhs v)).Emits c s targets parts s₁
  passes : s₁.Extends s₂
  receives : (resultLocals callee.outs).Gives c s₂ results s₃
  writes : ((resultStores targets results callee.outs).forM fun s =>
    s.target.store s.value).Emits c s₃ () code s'
  code_eq : ss = parts ++ passed ++ [.call (Naming.proc m kind) values results] ++ code

theorem BodyM.forM_map {α β : Type} (f : α → β) (g : β → BodyM Unit) (l : List α) :
    (l.map f).forM g = l.forM fun a => g (f a) := by
  induction l with
  | nil => rfl
  | cons a l ih => exact congrArg (g (f a) >>= ·) (funext fun _ => ih)

theorem BodyM.Emits.unique {α : Type} {x : BodyM α} {c : Context} {s s' t' : Progress} {a b : α}
    {ss ts : List IL.Stmt} (h : x.Emits c s a ss s') (h' : x.Emits c s b ts t') : a = b :=
  congrArg (·.1) (Except.ok.inj (congrArg Prod.fst (h.symm.trans h')))

section

variable {b : Body} {c : Context} {v : View} {span : Span} {m : Path}
  {receiver : Option Source.Expr} {args : List Source.Expr} {outs : List Lhs} {s s' : Progress}
  {ss : List IL.Stmt}

theorem exists_callCode (h : (b.lowerCall v span m receiver args outs).Emits c s () ss s') :
    Nonempty (CallCode c v s m outs ss s') := by
  have own : WritesOwn fun _ => True := ⟨fun _ _ => trivial, trivial⟩
  rw [Body.lowerCall_eq] at h
  obtain ⟨_, _, hcontext, h₁⟩ := BodyM.emits_decl_bind.1 h
  obtain ⟨rfl, rfl⟩ := DeclM.gives_context.1 hcontext
  obtain ⟨callee, hcallee, h₂⟩ := BodyM.emits_expr_bind.1 h₁
  obtain ⟨targets, s₁, parts, _, htargets, h₃, rfl⟩ := BodyM.emits_bind.1 h₂
  obtain ⟨recv, t₁, passed₁, _, hrecv, h₄, rfl⟩ := BodyM.emits_bind.1 h₃
  obtain ⟨rest, t₂, passed₂, _, hrest, h₅, rfl⟩ := BodyM.emits_bind.1 h₄
  obtain ⟨_, t₃, passed₃, _, hmodifies, h₆, rfl⟩ := BodyM.emits_bind.1 h₅
  obtain ⟨_, t₄, passed₄, _, hdescends, h₇, rfl⟩ := BodyM.emits_bind.1 h₆
  obtain ⟨kind, -, h₈⟩ := BodyM.emits_expr_bind.1 h₇
  obtain ⟨results, s₃, hresults, h₉⟩ := BodyM.emits_decl_bind.1 h₈
  obtain ⟨code, hcode, rfl⟩ := BodyM.emits_add_bind.1 h₉
  have hpasses := (((Writing.passThis own v callee receiver trivial hrecv).1.trans
    (Writing.passArgs own v callee.ins args trivial hrest).1).trans
    (Writing.assertModifies (N := fun _ => True) v span callee _ trivial hmodifies).1).trans
    (Writing.assertDescends (N := fun _ => True) b v span m callee _ trivial hdescends).1
  refine ⟨⟨callee, targets, results, s₁, _, s₃, kind, (recv ++ rest).map (·.2), parts,
    passed₁ ++ passed₂ ++ passed₃ ++ passed₄, code, ExprM.returns_ofExcept.1 hcallee, htargets,
    hpasses.trans (t₄.extends_foldl_declare _), hresults, ?_, by simp⟩⟩
  rw [resultStores, BodyM.forM_map]
  exact hcode

/-- Results are received in fresh locals of their sorts. -/
theorem receives_locals {outs : List Source.Binder} {results : List String}
    (h : (resultLocals outs).Gives c s results s') : s.Extends s' ∧
    List.Forall₂ (fun out x => (∃ n, x = Naming.callOut n) ∧ s'.HasLocal x out.2.sort) outs
      results := by
  unfold resultLocals at h
  induction outs generalizing s results with
  | nil =>
    obtain ⟨rfl, rfl⟩ := DeclM.gives_pure.1 h
    exact ⟨.refl _, .nil⟩
  | cons out outs ih =>
    rw [List.mapM_cons] at h
    simp only [DeclM.gives_bind, DeclM.gives_pure] at h
    obtain ⟨x, s₁, ⟨n, t₁, hid, _, t₂, hlocal, rfl, rfl⟩, rest, s₂, hrest, rfl, rfl⟩ := h
    have hfirst : s.Extends s₁ := (DeclM.Grows.freshId.extends_of_gives hid).trans
      ((DeclM.Grows.declareLocal _ _).extends_of_gives hlocal)
    obtain ⟨hs, hrest⟩ := ih hrest
    refine ⟨hfirst.trans hs, .cons ⟨⟨n, rfl⟩, hs.hasLocal ?_⟩ hrest⟩
    cases hlocal
    exact t₁.hasLocal_declareLocal _ _

end

/-! ## Results in any order -/

/-- Boxing gives back what was unboxed. -/
theorem Boxing.box_unbox_var (t : Typ) (x : String) : box t (unbox t (.var x)) = .var x := by
  unfold box unbox
  cases hs : t.boxSort? with
  | none => rfl
  | some s => cases s <;> rfl

section

variable {vars : List String} {M : Model} {old ρ : M.Valuation} {G : Sorts}

theorem untouched_callOut (hvars : ∀ x ∈ vars, Naming.Plain x) (n : Nat) :
    Untouched vars (Naming.callOut n) := by
  refine untouched_numbered (by simp [Naming.callOut]) (fun m heq => ?_) hvars
  simpa [Naming.callOut, Naming.prevHeap] using congrArg (·.toList.take 2) heq

/-- The box of a variable that is converted is a box. -/
theorem carrier_box_convert (hM : M.Heaps) {t u : Typ} (hfit : t.Fits u) {x : String}
    (hx : M.carrier t.sort (ρ x)) :
    M.carrier Prelude.boxSort ((Boxing.box u (Boxing.convert t u (.var x))).eval old ρ) := by
  cases ht : t.isBoxed <;> cases hu : u.isBoxed
  · have hsort : t.sort = u.sort := by simpa [Source.Typ.Fits, ht, hu] using hfit
    simpa [Boxing.convert, Boxing.boxTo, Boxing.unboxTo, ht, hu]
      using carrier_box_var hM (hsort ▸ hx)
  · have hnone : u.boxSort? = none := by simpa [Source.Typ.isBoxed] using hu
    simpa [Boxing.convert, Boxing.boxTo, Boxing.unboxTo, Boxing.box, hnone, ht, hu]
      using carrier_box_var hM hx
  · rw [Boxing.sort_of_isBoxed ht] at hx
    rw [Boxing.convert, Boxing.boxTo, hu, Bool.false_and, if_neg Bool.false_ne_true, Boxing.unboxTo,
      ht, hu, Bool.not_false, Bool.and_self, if_pos rfl, Boxing.box_unbox_var]
    simpa using hx
  · have hnone : u.boxSort? = none := by simpa [Source.Typ.isBoxed] using hu
    rw [Boxing.sort_of_isBoxed ht] at hx
    simpa [Boxing.convert, Boxing.boxTo, Boxing.unboxTo, Boxing.box, hnone, ht, hu] using hx

theorem mem_zip_of_mem_zip_zip {α β γ : Type} {as : List α} {bs : List β} {cs : List γ}
    {p : (α × β) × γ} (h : p ∈ (as.zip bs).zip cs) : (p.2, p.1.2) ∈ cs.zip bs := by
  obtain ⟨i, hi, rfl⟩ := List.mem_iff_getElem.1 h
  simp only [List.length_zip] at hi
  exact List.mem_iff_getElem.2 ⟨i, by simp only [List.length_zip]; omega, by simp⟩

namespace CallCode

variable {c : Context} {v : View} {s s' : Progress} {m : Path} {outs : List Lhs} {ss : List IL.Stmt}
  (r : CallCode c v s m outs ss s')

/-- The stores of the results. -/
def stores : List Store := resultStores r.targets r.results r.callee.outs

/-- The result types are those of the targets, up to boxes. -/
def Typed : Prop := ∀ p ∈ (r.targets.zip r.results).zip r.callee.outs, p.2.2.Fits p.1.1.typ

/-- The targets are evaluated before the call, and the results are converted from fresh locals. -/
theorem stores_evaluated (htyped : r.Typed) : ∀ st ∈ r.stores,
    st.target.Evaluated c r.s₃ ∧ (∃ lhs ∈ outs, st.target.var? = lhs.var?) ∧ ∃ t n,
      st.value = Boxing.convert t st.target.typ (.var (Naming.callOut n)) ∧
      r.s₃.HasLocal (Naming.callOut n) t.sort ∧ t.Fits st.target.typ := by
  intro st hst
  obtain ⟨p, hp, rfl⟩ := List.mem_map.1 hst
  obtain ⟨hextends, hlocals⟩ := receives_locals r.receives
  have hevaluated : List.Forall₂ (fun lhs t => t.Evaluated c r.s₁ ∧ t.var? = lhs.var?) outs
      r.targets := (BodyM.Leaves.mapM (fun lhs _ => ofLhs_leaves v lhs)
    (fun lhs s s' t hs ht => ⟨ht.1.extends hs, ht.2⟩) r.evaluates).2
  obtain ⟨lhs, hlhs, htarget, hvar⟩ :=
    exists_of_forall₂ hevaluated (List.of_mem_zip (List.of_mem_zip hp).1).1
  obtain ⟨⟨n, hn⟩, hlocal⟩ := (List.forall₂_iff_zip.1 hlocals).2 (mem_zip_of_mem_zip_zip hp)
  exact ⟨htarget.extends (r.passes.trans hextends), ⟨lhs, hlhs, hvar⟩, p.2.2, n,
    congrArg (fun x => Boxing.convert p.2.2 p.1.1.typ (.var x)) hn, hn ▸ hlocal, htyped p hp⟩

/-- The stores are independent where they are compatible. -/
theorem independent (htyped : r.Typed) (hclash : s'.decl.clash = none)
    (hdeclared : c.Declared s'.handles) (hG : s'.SortedBy c G)
    (hvars : ∀ x ∈ outs.filterMap Lhs.var?, Assignable G x) (hM : M.Heaps)
    (hρ : Model.Respects G ρ) (hcompatible : r.stores.Pairwise (Store.Compatible old ρ)) :
    Independent (outs.filterMap Lhs.var?) old ρ r.stores := by
  have hlast := extends_of_stores r.writes
  refine independent_of_evaluated hM (hG.of_extends hlast) (hlast.clash hclash)
    (fun h hh => hdeclared h (hlast.handles.subset hh)) hρ hvars (fun st hst => ?_)
    (fun st hst => ?_) hcompatible
  · obtain ⟨hst, ⟨lhs, hlhs, hvar⟩, -⟩ := r.stores_evaluated htyped st hst
    exact ⟨hst, fun x hx => List.mem_filterMap.2 ⟨lhs, hlhs, hvar ▸ hx⟩⟩
  · obtain ⟨-, -, t, n, hvalue, hn, hfits⟩ := r.stores_evaluated htyped st hst
    have hlocal := hlast.locals.subset (hn (hlast.clash hclash))
    rw [Store.boxed, hvalue]
    refine ⟨fun x hx => ?_, carrier_box_convert hM hfits (hρ _ _ (hG.locals _ hlocal))⟩
    rw [Boxing.free_convert] at hx
    obtain rfl := List.mem_singleton.1 hx
    exact untouched_callOut (fun x hx => (hvars x hx).1) n

/-- In every state after a call in which its stores are compatible they may be made in any order.
States are sorted, and so are the heaps in between. -/
def Simultaneous (M : Model) (G : Sorts) : Prop :=
  ∀ {procs : List Procedure} {old ρ₀ ρ : M.Valuation} {tr : Trace M},
    Exec procs old (r.parts ++ r.passed ++ [.call (Naming.proc m r.kind) r.values r.results]) ρ₀ tr
      (.done ρ) →
    Model.Respects G ρ₀ → tr.Passes (Model.Respects G) →
    r.stores.Pairwise (Store.Compatible old ρ) → InAnyOrder procs old ρ r.stores

end CallCode

end

/-- The results of a call may be stored in any order, if no variable occurs twice among the targets
and targets that are one location receive the same value. -/
theorem results_in_any_order {b : Body} {c : Context} {v : View} {span : Span} {m : Path}
    {receiver : Option Source.Expr} {args : List Source.Expr} {outs : List Lhs} {s s' : Progress}
    {ss : List IL.Stmt} (h : (b.lowerCall v span m receiver args outs).Emits c s () ss s')
    (hclash : s'.decl.clash = none) (hdeclared : c.Declared s'.handles) {G : Sorts}
    (hG : s'.SortedBy c G) (hvars : ∀ x ∈ outs.filterMap Lhs.var?, Assignable G x) {M : Model}
    {entry global : M.Valuation} (hM : Model.SatisfiesPrelude entry global) :
    ∃ r : CallCode c v s m outs ss s', r.Typed → r.Simultaneous M G := by
  obtain ⟨r⟩ := exists_callCode h
  refine ⟨r, fun htyped procs old ρ₀ ρ tr hexec hρ₀ hsorted hcompatible => ?_⟩
  have hheap := Prelude.heaps_of_prelude hM
  have hρ : Model.Respects G ρ := hexec.passes hρ₀ hsorted
  exact (r.independent htyped hclash hdeclared hG hvars hheap hρ hcompatible).inAnyOrder hheap
    (fun x hx => writable_of_plain (hvars x hx).1) (hρ _ _ hG.heap)

namespace Pair

/-- A method with two results. -/
def method : Method where
  name := ⟨"M", ["C", "g"]⟩
  span := default
  owner := none
  isLemma := false
  typParams := []
  ins := []
  outs := [("a", .int), ("b", .int)]
  requires := []
  modifies := []
  ensures := []
  decreases := none
  body := none
  induction := .default
  refinement := default

def context : Context := { Swap.context with methods := [method] }

/-- The call that stores its results in targets. -/
def call (targets : List Lhs) : BodyM Unit :=
  Body.lowerCall {} Swap.view default method.name none [] targets

/-- What the call is lowered to. -/
def lowered (targets : List Lhs) : Except Fault (Unit × List IL.Stmt) × Progress :=
  (call targets).run context {}

/-- The sorts of the names in the code that stores the results in a variable and a field. -/
def sorts : Sorts := fun x =>
  [(Prelude.heapName, Prelude.heapSort), ("x", .int), ("M.C.f", Prelude.fieldSort),
    ("tmp%1", Prelude.refSort), ("$out%2", .int), ("$out%3", .int)].lookup x

theorem lowered_eq : (lowered Swap.targets).1.toOption.isSome = true ∧
    (lowered Swap.targets).2.decl.clash = none ∧
    (lowered Swap.targets).2.decl.locals =
      [("tmp%1", Prelude.refSort), ("$out%2", .int), ("$out%3", .int)] ∧
    (lowered Swap.targets).2.handles = [.ofField Swap.field] :=
  have h : ((lowered Swap.targets).1.toOption.isSome, (lowered Swap.targets).2.decl.clash.isNone,
      (lowered Swap.targets).2.decl.locals, (lowered Swap.targets).2.handles) =
      (true, true, [("tmp%1", Prelude.refSort), ("$out%2", .int), ("$out%3", .int)],
        [.ofField Swap.field]) := by cbv
  ⟨congrArg (·.1) h, Option.isNone_iff_eq_none.1 (congrArg (·.2.1) h), congrArg (·.2.2.1) h,
    congrArg (·.2.2.2) h⟩

theorem lowers : ∃ ss, (call Swap.targets).Emits context {} () ss (lowered Swap.targets).2 := by
  cases hout : (lowered Swap.targets).1 with
  | error e => simpa [hout, Except.toOption] using lowered_eq.1
  | ok p => exact ⟨p.2, Prod.ext hout rfl⟩

/-- The targets before the call. -/
def evaluated : List Target :=
  [.var "x" .int, .heap (.var "tmp%1") (.var "M.C.f") .int]

theorem evaluates : ∃ parts s, (Swap.targets.mapM (Target.ofLhs Swap.view)).Emits context {} evaluated
    parts s := ⟨_, _, rfl⟩

section

variable {ss : List IL.Stmt} {s' : Progress}
  (r : CallCode context Swap.view {} method.name Swap.targets ss s')

theorem callee_eq : r.callee = method := (Except.ok.inj r.found).symm

theorem targets_eq : r.targets = evaluated := by
  obtain ⟨parts, s, hevaluates⟩ := evaluates
  exact r.evaluates.unique hevaluates

theorem typed : r.Typed := by
  intro p hp
  obtain ⟨htarget, hout⟩ := List.of_mem_zip hp
  have ht := (List.of_mem_zip htarget).1
  rw [callee_eq] at hout
  rw [targets_eq] at ht
  have houts : ∀ out ∈ method.outs, out.2 = .int := by simp [method]
  have htargets : ∀ t ∈ evaluated, t.typ = .int := by simp [evaluated, Target.typ]
  exact .inl (by rw [houts _ hout, htargets _ ht])

/-- The targets are a variable and a location. -/
theorem compatible {M : Model} (old ρ : M.Valuation) :
    r.stores.Pairwise (Store.Compatible old ρ) := by
  have hresults := (receives_locals r.receives).2.length_eq
  rw [callee_eq] at hresults
  obtain ⟨x, y, hxy⟩ := List.length_eq_two.1 hresults.symm
  have hstores : r.stores = resultStores evaluated [x, y] method.outs := by
    rw [CallCode.stores, callee_eq, targets_eq, hxy]
  rw [hstores]
  refine List.pairwise_pair.2 ⟨fun z _ hz => ?_, fun _ _ hx _ => hx.elim⟩
  cases hz

end

/-- One result is stored in a variable, the other one in a field. -/
theorem results_in_any_order_pair : ∃ ss,
    (call Swap.targets).Emits context {} () ss (lowered Swap.targets).2 ∧
    (lowered Swap.targets).2.decl.clash = none ∧
    context.Declared (lowered Swap.targets).2.handles ∧
    (lowered Swap.targets).2.SortedBy context sorts ∧
    (∀ x ∈ Swap.targets.filterMap Lhs.var?, Assignable sorts x) ∧
    ∃ r : CallCode context Swap.view {} method.name Swap.targets ss (lowered Swap.targets).2,
      r.Typed ∧ (∀ old ρ : (Standard.model Interval.nothing).Valuation,
        r.stores.Pairwise (Store.Compatible old ρ)) ∧
      r.Simultaneous (Standard.model Interval.nothing) sorts := by
  obtain ⟨-, hclash, hlocals, hhandles⟩ := lowered_eq
  obtain ⟨ss, hlowers⟩ := lowers
  have hdeclared : context.Declared (lowered Swap.targets).2.handles := by
    intro h hh
    rw [hhandles] at hh
    exact ⟨Swap.field, rfl, List.mem_singleton.1 hh⟩
  have hsorted : (lowered Swap.targets).2.SortedBy context sorts := by
    refine ⟨rfl, fun b hb => ?_, fun f hf _ => ?_⟩
    · rw [hlocals] at hb
      fin_cases hb <;> rfl
    · rw [Swap.field_eq (show Swap.context.field f.id = .ok f from hf)]
      rfl
  have hvars : ∀ x ∈ Swap.targets.filterMap Lhs.var?, Assignable sorts x := by
    intro x hx
    obtain rfl : x = "x" := List.mem_singleton.1 hx
    exact ⟨by simp [Naming.Plain], .int, rfl⟩
  obtain ⟨r, hr⟩ := results_in_any_order hlowers hclash hdeclared hsorted hvars
    (Interval.preludeState 0 0 0).toSatisfiesPrelude
  exact ⟨ss, hlowers, hclash, hdeclared, hsorted, hvars, r, typed r, compatible r, hr (typed r)⟩

/-- A variable that occurs twice. -/
def twice : List Lhs := [.var default "x" .int, .var default "x" .int]

/-- The code of the call with this variable. -/
def code : List IL.Stmt :=
  [.call (Naming.proc method.name .interModuleCall) [] ["$out%1", "$out%2"],
    .assign "x" (.var "$out%1"), .assign "x" (.var "$out%2")]

/-- The state after the locals are declared. -/
def after : Progress := { decl := { counter := 2, locals := [("$out%1", .int), ("$out%2", .int)] } }

theorem emits_twice : (call twice).Emits context {} () code after := rfl

theorem found_twice : context.method method.name = .ok method := rfl

theorem evaluates_twice : (twice.mapM (Target.ofLhs Swap.view)).Emits context {}
    [.var "x" .int, .var "x" .int] [] {} := rfl

theorem receives_twice :
    (resultLocals method.outs).Gives context {} ["$out%1", "$out%2"] after := rfl

theorem writes_twice : ((resultStores [.var "x" .int, .var "x" .int] ["$out%1", "$out%2"]
    method.outs).forM fun st => st.target.store st.value).Emits context after ()
      [.assign "x" (.var "$out%1"), .assign "x" (.var "$out%2")] after := rfl

theorem code_twice : code = [] ++ [] ++ [.call (Naming.proc method.name .interModuleCall) []
    ["$out%1", "$out%2"]] ++ [.assign "x" (.var "$out%1"), .assign "x" (.var "$out%2")] := by
  simp only [code, List.nil_append, List.cons_append]

/-- The code of the call with its parts. -/
def callCode : CallCode context Swap.view {} method.name twice code after where
  callee := method
  targets := [.var "x" .int, .var "x" .int]
  results := ["$out%1", "$out%2"]
  s₁ := {}
  s₂ := {}
  s₃ := after
  kind := .interModuleCall
  values := []
  parts := []
  passed := []
  code := [.assign "x" (.var "$out%1"), .assign "x" (.var "$out%2")]
  found := found_twice
  evaluates := evaluates_twice
  passes := .refl _
  receives := receives_twice
  writes := writes_twice
  code_eq := code_twice

/-- Of two stores in the variable the last one stays. -/
theorem exec_twice {M : Model} {a b : String} (hb : b ≠ "x") (ρ : M.Valuation) :
    ∃ σ tr, Exec [] ρ [.assign "x" (.var a), .assign "x" (.var b)] ρ tr (.done σ) ∧ tr.Proper ∧
      σ "x" = ρ b := by
  refine ⟨_, _, .step (.assign _ _ _) (.step (.assign _ _ _) (.nil _)), ?_, ?_⟩
  · intro o τ e h
    simp at h
  · rw [Function.update_self, Expr.eval_var, Function.update_of_ne hb]

/-- A state in which the results are one and two. -/
noncomputable def state : (Standard.model Interval.nothing).Valuation :=
  Function.update (Function.update (Interval.state 0 0 0) "$out%1" (.int 1)) "$out%2" (.int 2)

/-- A call whose results go to one variable is accepted, and asserts nothing. Its stores in one
order leave another value in the variable than in the other order. -/
theorem results_order_matters :
    (call twice).Emits context {} () code after ∧ Stmt.asserted code = [] ∧ callCode.Typed ∧
    ∃ order : List Store, order.Perm callCode.stores ∧ ∃ ss,
      (order.forM fun st => st.target.store st.value).Emits context after () ss after ∧
      ∃ σ σ' tr tr', Exec [] state callCode.code state tr (.done σ) ∧ tr.Proper ∧
        Exec [] state ss state tr' (.done σ') ∧ tr'.Proper ∧ σ "x" ≠ σ' "x" := by
  refine ⟨emits_twice, rfl, ?_, callCode.stores.reverse, List.reverse_perm _,
    [.assign "x" (.var "$out%2"), .assign "x" (.var "$out%1")], rfl, ?_⟩
  · intro p hp
    fin_cases hp <;> exact .inl rfl
  · obtain ⟨σ, tr, hσ, hproper, hx⟩ := exec_twice (a := "$out%1") (b := "$out%2")
      (by decide) state
    obtain ⟨τ, tr', hτ, hproper', hx'⟩ := exec_twice (a := "$out%2") (b := "$out%1")
      (by decide) state
    refine ⟨σ, τ, tr, tr', hσ, hproper, hτ, hproper', ?_⟩
    intro heq
    have hvalues : Standard.Val.int 2 = .int 1 := hx.symm.trans (heq.trans hx')
    simp at hvalues

end Pair

end ContractLowering
