import ContractLowering.Lowering.Stmt
import ContractLowering.Proofs.Lowering.SortedChecks
import ContractLowering.Proofs.Lowering.SortedGoals

/-!
# Calls of generic declarations

Where a generic predicate or lemma is called, what stands for the call is Boolean at arguments of
any types: the parts of a goal in which predicates are opened, and what a forall statement assumes
of a lemma.
-/

namespace ContractLowering

open IL Source

section

variable {S : Conventions} {Δ : Vocabulary} {c : Context} {s : Progress} {v : View}
  {this : Option Typ} {hasThis : Bool} {Λ : Locals}

/-! ## Forall statements -/

theorem Reserved.of_current {env : Env} {x : String}
    (h : Reserved env { v with oldHeap := v.heap } x) : Reserved env v x := by
  cases h with
  | const h => exact .const h
  | cls p => exact .cls p
  | field h => exact .field h
  | this => exact .this
  | heap h => exact .heap h
  | oldHeap h => exact .heap h
  | generated h => exact .generated h

/-- What is in scope is in scope where the old state is the current one. -/
theorem Scope.current {env : Env} {Γ : Typing} {G : Sorts} (h : Scope Δ env v hasThis Γ G) :
    Scope Δ env { v with oldHeap := v.heap } hasThis Γ G :=
  { h with
    vars := fun hx => ⟨fun hr => (h.vars hx).1 hr.of_current, (h.vars hx).2⟩
    oldHeap := h.heap
    heapNames := fun x hx => h.heapNames x (by
      simp only [List.mem_append] at hx ⊢
      tauto) }

theorem Source.Conventions.Serves.current {env : Env} (h : S.Serves this env v hasThis) :
    S.Serves this env { v with oldHeap := v.heap } hasThis :=
  ⟨h.context, fun x hx hr => h.apart x hx hr.of_current, h.this, h.implicit⟩

/-- A domain with the types of its variables. -/
structure Source.Domain.Typed (S : Conventions) (this : Option Typ) (Λ : Locals) (d : Domain)
    (τs : List Typ) : Prop where
  binds : Binds S d.binders τs
  resolved : ∀ b ∈ d.binders, b.2.Resolved S.context
  range : ∀ e ∈ d.range, (∃ τ, HasType S this (Λ.bind d.binders τs) e τ) ∧ e.typ.sort = .bool

/-- A call of a method with generic ensures clauses, in an instance. -/
structure Source.Method.Instance (S : Conventions) (this : Option Typ) (Λ : Locals) (m : Method)
    (r : Option (Source.Expr × Typ)) (ps : List (Source.Expr × Typ)) : Prop where
  ensures : ∀ e ∈ m.ensures, e.expr.IsGeneric S (· = ps.map (·.1.typ)) m.owner m.ins
  receiver : m.owner.isSome → r = none → this.isSome
  passes : Passes (argTypes ps) m.ins
  ref : ∀ p ∈ r, p.1.typ.sort = Prelude.refSort
  object : ∀ p ∈ r, HasType S this Λ p.1 p.2
  args : ∀ p ∈ ps, HasType S this Λ p.1 p.2

theorem domainHolds_sorted {env : Env} (hS : Signed Δ env) (hserves : S.Serves this env v hasThis)
    {d : Domain} {τs : List Typ} (hd : d.Typed S this Λ τs) :
    ∃ e, (domainHolds v d).Returns env e ∧
      SortedAs Δ env v hasThis (Λ.bind d.binders τs).annotated e .bool := by
  have hnames : ∀ b ∈ d.binders, ¬ Reserved env v b.1 :=
    fun b hb => hserves.apart _ (hd.binds.name b hb)
  obtain ⟨w, hw, hws⟩ := bindersWhere_sorted v hasThis hS
    fun b hb => ⟨hnames b hb, hserves.context ▸ hd.resolved b hb⟩
  obtain ⟨u, hu, -, hus⟩ := lowerExpr?_sorted (o := d.range)
    (fun e he => (hd.range e he).1.elim fun _ hτ => hτ.lowersSorted hS hserves)
    fun e he => (hd.range e he).2
  refine ⟨_, hw.bind (hu.bind rfl), fun G hG => Expr.sort?_conj (List.forall_mem_cons.2
    ⟨hws hG fun b hb => (hG.vars (Typing.bind_of_nodup hd.binds.nodup hb)).2, fun x hx => ?_⟩)⟩
  exact hus x (Option.mem_toList.1 hx) G hG

/-- The receiver and the arguments of a call, for the receiver and the parameters of a method. -/
def Source.Method.passing (m : Method) (receiver : Option Source.Expr)
    (args : List Source.Expr) : Subst :=
  .ofBindings (if m.owner.isSome then receiver else none) ((m.ins.map (·.1)).zip args)

/-- The ensures clauses of a method are Boolean at the arguments of a call. -/
theorem Source.Method.Instance.ensures_sorted (h : S.Hold Δ c s v this hasThis)
    (hΛ : Λ.Plain) {v' : View} (hserves : S.filled.Serves this (s.env c) v' hasThis) {m : Method}
    {r : Option (Source.Expr × Typ)} {ps : List (Source.Expr × Typ)}
    (hcall : m.Instance S this Λ r ps) :
    ∃ facts, (lowerTerms v' (m.ensures.map
        (·.expr.subst (m.passing (r.map (·.1)) (ps.map (·.1)))))).Returns (s.env c) facts ∧
      ∀ a ∈ facts, SortedAs Δ (s.env c) v' hasThis Λ.annotated a .bool := by
  have htyped : ∀ e ∈ m.ensures.map (·.expr.subst (m.passing (r.map (·.1)) (ps.map (·.1)))),
      HasType S.filled this { Λ with formals := none } e .bool ∧ e.typ.sort = .bool := by
    refine List.forall_mem_map.2 fun e he => ?_
    exact (hcall.ensures e he).at_arguments S.renames_filled h.receives.ref rfl hcall.passes
      (fun p hp => ⟨hcall.ref p hp, (hcall.object p hp).admits,
        (hcall.object p hp).supplies S.renames_filled hΛ⟩)
      (fun p hp => (hcall.args p hp).supplies S.renames_filled hΛ) hcall.receiver rfl
  obtain ⟨facts, hfacts, hsorted⟩ := lowerTerms_sorted
    fun e he => (htyped e he).1.lowersSorted h.signed hserves
  refine ⟨facts, hfacts, fun a ha => ?_⟩
  obtain ⟨e, he, hae⟩ := exists_of_forall₂ hsorted.flip ha
  exact (htyped e he).2 ▸ hae

/-- A step that lowers an expression, after others, gives what it gave before them. -/
theorem BodyM.exists_emits_bind {α : Type} {x : ExprM α} {a : α} {f : α → BodyM Unit}
    {ss : List IL.Stmt} {s₁ : Progress} (hx : x.Stable) (ha : x.Returns (s.env c) a)
    (h₁ : s.Later c s₁) (hf : ∀ s₂, s.Later c s₂ → ∃ s', (f a).Emits c s₂ () ss s') :
    ∃ s', ((liftM x : BodyM α) >>= f).Emits c s₁ () ss s' := by
  have ha₁ := (hx.returns h₁.same).2 ha
  have hrun : (DeclM.ofExpr x).Runs c s₁ a _ := DeclM.gives_ofExpr.2 ⟨ha₁, rfl⟩
  obtain ⟨s', hs'⟩ := hf _ (h₁.trans (hrun.ofExpr hx).2)
  exact ⟨s', BodyM.emits_expr_bind.2 ⟨a, ha₁, hs'⟩⟩

/-- What a forall statement assumes of the method it calls is Boolean, in a body, where the heap is
the global one. -/
theorem forallEnsures_sorted (h : S.Hold Δ c s v this hasThis) (hheap : v.heap = Prelude.heapVar)
    (hΛ : Λ.Plain) {d : Domain} {τs : List Typ} (hd : d.Typed S this Λ τs) {callee : Method}
    {r : Option (Source.Expr × Typ)} {ps : List (Source.Expr × Typ)}
    (hcall : callee.Instance S this (Λ.bind d.binders τs) r ps) :
    ∃ fact s', (forallEnsures v d callee (r.map (·.1)) (ps.map (·.1))).Emits c s () [.assume fact]
        s' ∧ SortedAs Δ (s.env c) v hasThis Λ.annotated fact .bool := by
  have hserves := S.renames_filled.serves h.serves
  have hview : ({ v with heap := Prelude.heapVar, oldHeap := Prelude.heapVar } : View) =
      { v with oldHeap := v.heap } := by rw [hheap]
  obtain ⟨holds, hholds, hsorted⟩ := domainHolds_sorted h.signed hserves hd
  obtain ⟨facts, hfacts, hfactss⟩ := hcall.ensures_sorted h hΛ.bind h.serves.current
  obtain ⟨fact, hfact, hfacts'⟩ := allAuto_sorted Δ (s.env c) (sortBinders d.binders)
    (.imp holds (.conj facts))
  have hstable : (domainHolds v d).Stable := (bindersWhere_stable ..).bind fun _ =>
    (lowerExpr?_stable ..).bind fun _ => .pure _
  have hemits : ∃ s', (forallEnsures v d callee (r.map (·.1)) (ps.map (·.1))).Emits c s ()
      [.assume fact] s' := by
    refine BodyM.exists_emits_bind (lowerTerms_has (T := .stable) ..) (hview ▸ hfacts) (.refl c s)
      fun _ h₁ => BodyM.exists_emits_bind hstable hholds h₁
        fun _ h₂ => BodyM.exists_emits_bind (allAuto_has (T := .stable) ..) hfact h₂
          fun s₃ _ => ⟨s₃, BodyM.emits_add.2 ⟨rfl, rfl⟩⟩
  obtain ⟨s', hs'⟩ := hemits
  refine ⟨fact, s', hs', fun G hG => hfacts' G ?_⟩
  have hscope := hG.bind h.signed fun b hb => hserves.apart _ (hd.binds.name b hb)
  exact Expr.sort?_imp (hsorted _ hscope)
    (Expr.sort?_conj fun a ha => hfactss a ha _ hscope.current)

/-! ## Goals and forall statements -/

/-- The variables of the source, which have the types they are annotated with. -/
def Source.Locals.ofTyping (Γ : Typing) : Locals where
  formals := some ⟨none, fun _ => none⟩
  annotated := Γ
  actual := Γ

theorem Source.Locals.plain_ofTyping (Γ : Typing) : (ofTyping Γ).Plain := ⟨fun _ => rfl, rfl⟩

/-- Where generic predicates are called with arguments of any types, every part of a goal is
Boolean, whatever takes the place of calls, and so is what a forall statement assumes of a generic
lemma. An instance of a body is typed like the body, except that an argument may be annotated
otherwise than its formal: the value and the body of a let, the operand of an old value, the index
into a multiset and the key of a map update are not converted, so their annotations have to keep
their sorts. -/
theorem genericCalls_sorted (h : S.Hold Δ c s v this hasThis) {Γ : Typing}
    (hΓ : ∀ x t, Γ x = some t → S.mayBind x) :
    (∀ goal induct τ, HasType S this (.ofTyping Γ) goal τ → goal.typ.sort = .bool →
      ∃ parts s', (split v goal induct).Runs c s parts s' ∧
        ∀ p ∈ parts, SortedAs Δ (s.env c) v hasThis Γ p.expr .bool) ∧
    (v.heap = Prelude.heapVar → ∀ d τs callee r ps, d.Typed S this (.ofTyping Γ) τs →
      callee.Instance S this ((Locals.ofTyping Γ).bind d.binders τs) r ps →
      ∃ fact s', (forallEnsures v d callee (r.map (·.1)) (ps.map (·.1))).Emits c s ()
          [.assume fact] s' ∧
        SortedAs Δ (s.env c) v hasThis Γ fact .bool) := by
  have hplain := Locals.plain_ofTyping Γ
  refine ⟨fun goal induct τ hgoal hbool => ?_, fun hheap d τs callee r ps hd hcall => ?_⟩
  · obtain ⟨parts, s', hrun, -, hparts⟩ := splitGoal_sorted h c.options.splitHeight
      (openingBound c goal) induct goal S.renames_filled hplain hgoal hbool
      (fun _ => ⟨rfl, rfl, hΓ⟩) (.refl c s)
    exact ⟨parts, s', runs_split.2 hrun, hparts⟩
  · exact forallEnsures_sorted h hheap hplain hd hcall

end

/-! ### Keys of a map -/

namespace Zeroed

/-- A map whose keys are of the type parameter. -/
def mapTyp : Typ := .map (.param "T") .int

/-- A key of a map has the value zero, so that setting it to zero makes `e` equal to the map. -/
def condition (e : Source.Expr) : Source.Expr :=
  .binary ⟨default, .bool⟩ .eq
    (.update ⟨default, mapTyp⟩ e (.var ⟨default, .param "T"⟩ "x") (.int ⟨default, .int⟩ 0))
    (.var ⟨default, mapTyp⟩ "xs")

/-- A generic predicate with this condition. -/
def predicate (e : Source.Expr) : Function where
  name := ⟨"M", ["C", "p"]⟩
  span := default
  owner := none
  typParams := ["T"]
  params := [("xs", mapTyp), ("x", .param "T")]
  result := ("r", .bool)
  requires := []
  reads := []
  ensures := []
  decreases := none
  body := some (condition e)
  isHidden := false
  refinement := default

def context (e : Source.Expr) : Context := { functions := [predicate e] }

/-- The predicate for a map and a key that are not boxed. -/
def goal : Source.Expr :=
  .call ⟨default, .bool⟩ ⟨"M", ["C", "p"]⟩ none
    [.mapDisplay ⟨default, .map .int .int⟩ [], .int ⟨default, .int⟩ 1]

/-- A generic lemma that gives the predicate for every map and every key. -/
def zeroing : Method where
  name := ⟨"M", ["C", "zeroing"]⟩
  span := default
  owner := none
  isLemma := true
  typParams := ["T"]
  ins := [("xs", mapTyp), ("x", .param "T")]
  outs := []
  requires := []
  modifies := []
  ensures := [⟨.call ⟨default, .bool⟩ ⟨"M", ["C", "p"]⟩ none
    [.var ⟨default, mapTyp⟩ "xs", .var ⟨default, .param "T"⟩ "x"], false, false⟩]
  decreases := none
  body := none
  induction := .default
  refinement := default

/-- In the module of the predicate. -/
def progress : Progress := { decl := { module := some "M" } }

/-- The functions of the prelude and of the predicate. -/
def functions : List (String × List Srt × Srt) :=
  Prelude.functions.map (fun f => (f.1, f.2.1.map Srt.ofName, Srt.ofName f.2.2)) ++
    [("M.C.p", [Prelude.mapSort, Prelude.boxSort], .bool),
     ("canCall%M.C.p", [Prelude.mapSort, Prelude.boxSort], .bool)]

def vocabulary : Vocabulary where
  func f := functions.lookup f
  global x := if x = "$Heap" then some Prelude.heapSort else none

variable {e : Source.Expr}

theorem eq_of_function {p : Path} {f : Function} (h : (context e).function p = .ok f) :
    p = ⟨"M", ["C", "p"]⟩ ∧ f = predicate e := by
  obtain ⟨hmem, hpath⟩ := Context.mem_of_orBroken h
  obtain rfl : f = predicate e := by simpa [context] using hmem
  exact ⟨by simpa [predicate, eq_comm] using hpath, rfl⟩

theorem signed : Signed vocabulary (progress.env (context e)) where
  covers :=
    { prelude := fun _ hf => Prelude.lookup_functions _ hf
      fields := nofun
      ctors := nofun
      functions := by
        intro p f hf l hl
        obtain ⟨rfl, rfl⟩ := eq_of_function hf
        have hl : l ∈ [(Layer.normal, Srt.bool), (.canCall, .bool)] := hl
        show List.lookup _ functions = some ([Prelude.mapSort, Prelude.boxSort], _)
        rcases List.mem_pair.1 hl with rfl | rfl <;> decide +kernel }
  handle := nofun

/-- The map and the key may be bound. Keys are called with annotations as maps have them. -/
def conventions (e : Source.Expr) : Conventions where
  context := context e
  mayBind x := x = "xs" ∨ x = "x"
  implicit := false
  accepts _ us := ∃ key value key', us = [.map key value, key'] ∧ key'.sort = key.sort

theorem head?_of_name {x : String} (h : (conventions e).Name x) : x.toList.head? = some 'x' := by
  induction h with
  | own h => rcases h with rfl | rfl <;> rfl
  | @renamed x n h ih => simp [Naming.renamed, List.head?_append, ih]

theorem head?_of_reserved {x : String}
    (h : Reserved (progress.env (context e)) Counter.view x) : x.toList.head? ≠ some 'x' := by
  cases h with
  | const h =>
    simp only [preludeConstants, List.mem_cons, List.not_mem_nil, or_false] at h
    rcases h with rfl | rfl | rfl | rfl | rfl | rfl <;> decide
  | cls p => simp [Naming.cls]
  | field hf => cases hf
  | this => decide
  | heap h =>
    obtain rfl : x = "$Heap" := by simpa [Counter.view, Expr.names] using h
    decide
  | oldHeap h => simp [Counter.view, Expr.names] at h
  | generated h =>
    cases h with
    | box => decide
    | boxAt d => simp [WhereClause.boxVar, Naming.boxVar]
    | indexAt d => simp [WhereClause.indexVar, Naming.indexVar]

/-- The condition of the predicate for the map itself is one for maps and keys that are annotated
alike. -/
theorem generic : (condition (.var ⟨default, mapTyp⟩ "xs")).IsGeneric
    (conventions (.var ⟨default, mapTyp⟩ "xs"))
    (fun us => ∃ key value key', us = [.map key value, key'] ∧ key'.sort = key.sort) none
    [("xs", mapTyp), ("x", .param "T")] where
  bool := rfl
  typed us receiver this haccepts hpass _ _ _ := by
    obtain ⟨key, value, key', hus, hsort⟩ := haccepts
    obtain ⟨σ, hpass⟩ := hpass
    match us, hus, hpass with
    | [⟨t, _⟩, ⟨u, τ⟩], hus, hpass =>
      obtain ⟨rfl, rfl⟩ : t = .map key value ∧ u = key' := by simpa using hus
      simp only [List.forall₂_cons, List.forall₂_nil_right_iff, and_true] at hpass
      obtain ⟨⟨-, -, k, v, rfl, hk, hv⟩, -, -, hτ⟩ := hpass
      have hxs : HasType (conventions (.var ⟨default, mapTyp⟩ "xs")) this
          (.ofFormals [("xs", mapTyp), ("x", .param "T")]
            [(.map key value, .map k v), (u, τ)] receiver)
          (.var ⟨default, mapTyp⟩ "xs") (.map k v) :=
        .var (t := mapTyp) rfl rfl (.refl _) (fun _ => rfl) rfl ⟨k, v, rfl, trivial, hv⟩
      have hx : HasType (conventions (.var ⟨default, mapTyp⟩ "xs")) this
          (.ofFormals [("xs", mapTyp), ("x", .param "T")]
            [(.map key value, .map k v), (u, τ)] receiver)
          (.var ⟨default, .param "T"⟩ "x") τ :=
        .var (t := .param "T") rfl rfl trivial (fun _ => rfl) rfl trivial
      have hupdates : (Typ.map k v).Updates τ .int := ⟨hτ.trans hk.symm, .inl hv.symm⟩
      have hequal : BinOp.eq.Accepts (.map k v) (.map k v) .bool := ⟨.inl rfl, rfl⟩
      refine .binary ⟨.inl rfl, rfl⟩ hequal rfl ?_ hxs
      exact .update ⟨rfl, .inl rfl⟩ hupdates (by rintro _ _ ⟨⟩; exact hsort) rfl hxs.admits hxs hx
        (.int rfl rfl)

theorem hold : (conventions (.var ⟨default, mapTyp⟩ "xs")).Hold vocabulary
    (context (.var ⟨default, mapTyp⟩ "xs")) progress Counter.view none false where
  signed := signed
  serves :=
    { context := rfl
      apart := fun x hx hr => head?_of_reserved hr (head?_of_name hx)
      this := nofun
      implicit := nofun }
  receives := ⟨nofun, nofun⟩
  settled := by
    rintro x (rfl | rfl) <;> exact settled_of_notMem (by decide)
  predicates := by
    intro f callee hf _ b hb
    obtain ⟨rfl, rfl⟩ := eq_of_function hf
    obtain rfl : condition (.var ⟨default, mapTyp⟩ "xs") = b := Option.some.inj hb
    exact generic

/-- An empty map and the key `k` are arguments for the parameters, where keys are numbers. -/
theorem passes : Passes [(.map .int .int, .map .int .int), (.int, .int)]
    [("xs", mapTyp), ("x", .param "T")] :=
  ⟨fun _ => .int, .cons ⟨⟨_, _, rfl, trivial, rfl⟩, .refl _, ⟨_, _, rfl, rfl, rfl⟩⟩
    (.cons ⟨trivial, rfl, rfl⟩ .nil)⟩

theorem empty_typed {S : Conventions} {this : Option Typ} {Λ : Locals} {key value : Typ} :
    HasType S this Λ (.mapDisplay ⟨default, .map key value⟩ []) (.map key value) :=
  @HasType.mapDisplay _ _ _ _ [] _ _ _ _ rfl nofun (.refl _) nofun nofun

theorem goal_typed : HasType (conventions (.var ⟨default, mapTyp⟩ "xs")) none
    (.ofTyping fun _ => none) goal .bool := by
  refine @HasType.call _ none _ _ _ none
    [(.mapDisplay ⟨default, .map .int .int⟩ [], .map .int .int), (.int ⟨default, .int⟩ 1, .int)]
    (predicate (.var ⟨default, mapTyp⟩ "xs")) _ rfl nofun nofun passes ⟨_, _, _, rfl, rfl⟩
    (.inl rfl) rfl nofun (List.forall_mem_cons.2 ⟨?_, List.forall_mem_singleton.2 (.int rfl rfl)⟩)
  exact empty_typed

/-- All numbers, as keys. -/
def domain : Domain := ⟨[("x", .int)], none⟩

theorem domain_typed : domain.Typed (conventions (.var ⟨default, mapTyp⟩ "xs")) none
    (.ofTyping fun _ => none) [.int] where
  binds := ⟨by simp [domain], List.forall_mem_singleton.2 (.inr rfl), .cons rfl .nil⟩
  resolved := List.forall_mem_singleton.2 trivial
  range := nofun

/-- The empty map and a bound number. -/
def args : List (Source.Expr × Typ) :=
  [(.mapDisplay ⟨default, .map .int .int⟩ [], .map .int .int), (.var ⟨default, .int⟩ "x", .int)]

theorem zeroing_instance : zeroing.Instance (conventions (.var ⟨default, mapTyp⟩ "xs")) none
    ((Locals.ofTyping fun _ => none).bind domain.binders [.int]) none args where
  ensures := by
    refine List.forall_mem_singleton.2 ⟨rfl, fun us receiver this haccepts hpass _ _ _ => ?_⟩
    obtain ⟨σ, hpass⟩ := hpass
    obtain ⟨⟨t, τs⟩, ⟨u, τ⟩, rfl⟩ : ∃ a b, us = [a, b] :=
      List.length_eq_two.1 (by simpa [args] using congrArg List.length haccepts)
    obtain ⟨rfl, rfl⟩ : t = .map .int .int ∧ u = .int := by
      simpa [args, Expr.typ, Expr.info] using haccepts
    simp only [zeroing, List.forall₂_cons, List.forall₂_nil_right_iff, and_true] at hpass
    obtain ⟨⟨-, -, hτs⟩, -, -, hτ⟩ := hpass
    have hpasses : Passes [(mapTyp, τs), (.param "T", τ)] [("xs", mapTyp), ("x", .param "T")] :=
      ⟨σ, .cons ⟨.refl _, hτs.admits, hτs⟩ (.cons ⟨.refl _, trivial, hτ⟩ .nil)⟩
    refine @HasType.call _ _ _ _ _ none
      [(.var ⟨default, mapTyp⟩ "xs", τs), (.var ⟨default, .param "T"⟩ "x", τ)]
      (predicate (.var ⟨default, mapTyp⟩ "xs")) _ rfl (by simp [predicate]) (by simp) hpasses
      ⟨_, _, _, rfl, rfl⟩ (.inl rfl) rfl (by simp)
      (List.forall_mem_cons.2 ⟨?_, List.forall_mem_singleton.2 ?_⟩)
    · exact .var (t := mapTyp) rfl rfl (.refl _) (fun _ => rfl) rfl hτs.admits
    · exact .var (t := .param "T") rfl rfl trivial (fun _ => rfl) rfl trivial
  receiver := by simp [zeroing]
  passes := passes
  ref := by simp
  object := by simp
  args := by
    refine List.forall_mem_cons.2 ⟨?_, List.forall_mem_singleton.2 ?_⟩
    · exact empty_typed
    · exact .var (t := .int) rfl rfl rfl (fun _ => rfl) rfl rfl

theorem scope : Scope vocabulary (progress.env (context e)) Counter.view false (fun _ => none)
    Counter.sorts where
  vars := nofun
  null := rfl
  alloc := rfl
  setEmpty := rfl
  multisetEmpty := rfl
  seqEmpty := rfl
  mapEmpty := rfl
  cls := Counter.scope.cls
  field := nofun
  this := nofun
  thisName := Counter.scope.thisName
  heap hG := hG "$Heap" (by simp [Counter.view, Expr.names])
  oldHeap _ := rfl
  heapNames := Counter.scope.heapNames

/-- What the update of an empty map becomes for a key that is not boxed. -/
def updated : IL.Expr :=
  .app "Map.Equal" [.app "Map.Build" [.var "Map.Empty", .nat 1, .app "$Box.int" [.nat 0]],
    .var "Map.Empty"]

/-- The arguments of the predicate, and what may be assumed and is to be proved of it. -/
def parts : List GoalPart :=
  let args : List IL.Expr := [.var "Map.Empty", .app "$Box.int" [.nat 1]]
  [⟨.free, .app "M.C.p" args, default⟩,
    ⟨.free, .imp (.app "canCall%M.C.p" args) updated, default⟩, ⟨.checked, updated, default⟩]

theorem runs_empty : (split Counter.view goal false).Runs
    (context (.mapDisplay ⟨default, mapTyp⟩ [])) progress parts progress := by
  rw [runs_split]
  cbv

end Zeroed

/-- The predicate is opened for a map and a key that are not boxed: the key of the update is boxed
like the keys of the map, and so is the bound key in what a forall statement assumes. -/
theorem genericCalls_sorted_zeroed :
    let e : Source.Expr := .var ⟨default, Zeroed.mapTyp⟩ "xs"
    (Zeroed.conventions e).Hold Zeroed.vocabulary (Zeroed.context e) Zeroed.progress Counter.view
      none false ∧
    (∃ parts s', (split Counter.view Zeroed.goal false).Runs (Zeroed.context e) Zeroed.progress
        parts s' ∧
      ∀ p ∈ parts, p.expr.sort? Zeroed.vocabulary Counter.sorts = some .bool) ∧
    ∃ fact s', (forallEnsures Counter.view Zeroed.domain Zeroed.zeroing none
        (Zeroed.args.map (·.1))).Emits (Zeroed.context e) Zeroed.progress () [.assume fact] s' ∧
      fact.sort? Zeroed.vocabulary Counter.sorts = some .bool := by
  obtain ⟨hsplit, hforall⟩ := genericCalls_sorted Zeroed.hold (Γ := fun _ => none) nofun
  obtain ⟨parts, s', hrun, hparts⟩ := hsplit Zeroed.goal false .bool Zeroed.goal_typed rfl
  obtain ⟨fact, s'', hemits, hfact⟩ := hforall rfl Zeroed.domain [.int] Zeroed.zeroing none
    Zeroed.args Zeroed.domain_typed Zeroed.zeroing_instance
  exact ⟨Zeroed.hold, ⟨parts, s', hrun, fun p hp => hparts p hp _ Zeroed.scope⟩, fact, s'', hemits,
    hfact _ Zeroed.scope⟩

/-- A body that updates an empty map of its own at the key is well typed, and so is the goal, but
where the body takes the place of the call, the key is not boxed for a map whose keys are still of
the type parameter. -/
theorem unsorted_of_native_key :
    let e : Source.Expr := .mapDisplay ⟨default, Zeroed.mapTyp⟩ []
    WellTyped (Zeroed.context e) .free false (Typing.bind (Zeroed.predicate e).params fun _ => none)
      (Zeroed.condition e) ∧
    WellTyped (Zeroed.context e) .free false (fun _ => none) Zeroed.goal ∧
    Signed Zeroed.vocabulary (Zeroed.progress.env (Zeroed.context e)) ∧
    Scope Zeroed.vocabulary (Zeroed.progress.env (Zeroed.context e)) Counter.view false
      (fun _ => none) Counter.sorts ∧
    ∃ parts s', (split Counter.view Zeroed.goal false).Runs (Zeroed.context e) Zeroed.progress
      parts s' ∧ ∃ p ∈ parts, p.expr.sort? Zeroed.vocabulary Counter.sorts = none := by
  have hempty {D : Discipline} {Γ : Typing} {c : Context} {t : Typ} :
      WellTyped c D false Γ (.mapDisplay ⟨default, .map t .int⟩ []) :=
    .mapDisplay rfl nofun nofun nofun
  refine ⟨.binary ⟨.inl rfl, rfl⟩ (.update ⟨rfl, .inl rfl⟩ rfl hempty (.var rfl) (.int rfl))
    (.var rfl), ?_, Zeroed.signed, Zeroed.scope, ?_⟩
  · refine .call (show (Zeroed.context _).function _ = .ok (Zeroed.predicate _) from rfl) nofun
      nofun ?_ (.inl rfl) nofun ?_
    · exact .cons ⟨.inl rfl, trivial⟩ (.cons ⟨.inr (by decide), trivial⟩ .nil)
    · exact List.forall_mem_cons.2 ⟨hempty, List.forall_mem_singleton.2 (.int rfl)⟩
  · refine ⟨_, _, Zeroed.runs_empty, _, List.mem_of_getElem? (i := 2) rfl, ?_⟩
    decide +kernel

end ContractLowering
