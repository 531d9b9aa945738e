import ContractLowering.Proofs.Lowering.Emits
import ContractLowering.Proofs.Lowering.Instances
import ContractLowering.Proofs.Lowering.Opening
import ContractLowering.Proofs.Lowering.SortedObligations
import ContractLowering.Proofs.Lowering.Split

/-!
# Goals about generic predicates

The parts of a goal are Boolean, also where the bodies of generic predicates take the place of
calls: a body is an instance at the arguments, of whatever types these are.
-/

namespace ContractLowering

open IL Source

/-! ## Computations that deliver -/

namespace DeclM

variable {α β : Type} {c : Context} {s₀ : Progress}

/-- From every state in which expressions lower as before, a computation gives a value with a
property and leaves such a state behind. -/
def Delivers (x : DeclM α) (c : Context) (s₀ : Progress) (P : α → Prop) : Prop :=
  ∀ ⦃s : Progress⦄, s₀.Later c s → ∃ a s', x.Runs c s a s' ∧ s₀.Later c s' ∧ P a

namespace Delivers

variable {x : DeclM α} {f : α → DeclM β} {P : α → Prop} {Q : β → Prop}

theorem pure {a : α} (h : P a) : (Pure.pure a : DeclM α).Delivers c s₀ P :=
  fun s hs => ⟨a, s, runs_pure.2 ⟨rfl, rfl⟩, hs, h⟩

theorem bind (hx : x.Delivers c s₀ P) (hf : ∀ a, P a → (f a).Delivers c s₀ Q) :
    (x >>= f).Delivers c s₀ Q := by
  intro s hs
  obtain ⟨a, s₁, hrun, h₁, ha⟩ := hx hs
  obtain ⟨b, s₂, hrun', h₂, hb⟩ := hf a ha h₁
  exact ⟨b, s₂, runs_bind.2 ⟨a, s₁, hrun, hrun'⟩, h₂, hb⟩

theorem ofExpr {y : ExprM α} (hy : y.Stable) (h : ∃ a, y.Returns (s₀.env c) a ∧ P a) :
    (DeclM.ofExpr y).Delivers c s₀ P := by
  intro s hs
  obtain ⟨a, ha, hP⟩ := h
  have hrun : (DeclM.ofExpr y).Runs c s a _ := gives_ofExpr.2 ⟨(hy.returns hs.same).2 ha, rfl⟩
  exact ⟨a, _, hrun, hs.trans (hrun.ofExpr hy).2, hP⟩

theorem context : DeclM.context.Delivers c s₀ (c = ·) :=
  fun s hs => ⟨c, s, runs_context.2 ⟨rfl, rfl⟩, hs, rfl⟩

theorem freshId : DeclM.freshId.Delivers c s₀ (s₀.decl.counter < ·) := by
  intro s hs
  have hrun : DeclM.freshId.Runs c s (s.freshId).1 (s.freshId).2 := rfl
  obtain ⟨hlt, hlater⟩ := hrun.freshId
  exact ⟨_, _, hrun, hs.trans hlater, Nat.lt_of_le_of_lt hs.counter hlt⟩

end Delivers

end DeclM

/-! ## Copies of bound variables -/

theorem Source.lastIndex_map {f : String → String} (hf : Function.Injective f) (xs : List String)
    (x : String) : lastIndex (xs.map f) (f x) = lastIndex xs x := by
  induction xs with
  | nil => rfl
  | cons y xs ih => simp [lastIndex, ih, hf.eq_iff]

/-- The name at the place of its last occurrence. -/
theorem Source.getElem?_lastIndex {names : List String} {x : String} {n : Nat}
    (h : lastIndex names x = some n) : names[n]? = some x := by
  induction names generalizing n with
  | nil => cases h
  | cons y ys ih =>
    rw [lastIndex] at h
    cases hys : lastIndex ys x with
    | some m =>
      obtain rfl : m + 1 = n := by simpa [hys] using h
      exact ih hys
    | none =>
      obtain ⟨rfl, rfl⟩ : y = x ∧ 0 = n := by simpa [hys] using h
      rfl

namespace Induction

variable {n : Nat} {bs : List Source.Binder}

theorem names_renamed (n : Nat) (bs : List Source.Binder) :
    (renamed n bs).map (·.1) = (bs.map (·.1)).map (Naming.renamed · n) := by
  simp [renamed, Function.comp_def]

theorem names_copies (span : Span) (n : Nat) (bs : List Source.Binder) :
    (bs.map fun b => (b.1, Expr.mkVar span (Naming.renamed b.1 n) b.2)).map (·.1) =
      bs.map (·.1) := by
  simp [Function.comp_def]

theorem forall_renamed {P : Typ → Prop} (h : ∀ b ∈ bs, P b.2) : ∀ b ∈ renamed n bs, P b.2 :=
  List.forall_mem_map.2 h

theorem lastIndex_renamed (x : String) :
    lastIndex ((renamed n bs).map (·.1)) (Naming.renamed x n) = lastIndex (bs.map (·.1)) x := by
  rw [names_renamed]
  exact lastIndex_map (f := (Naming.renamed · n)) (fun _ _ => Naming.renamed_inj) _ _

variable {S₀ S : Conventions} {this : Option Typ} {Λ : Locals} {τs : List Typ} {e : Source.Expr}
  {τ : Typ}

/-- Copies of variables are bound to the same values. -/
theorem binds_renamed (hS : S₀.Renames S) (n : Nat) (h : Source.Binds S₀ bs τs) :
    Source.Binds S (renamed n bs) τs where
  nodup := names_renamed n bs ▸ h.nodup.map fun _ _ => Naming.renamed_inj
  name := List.forall_mem_map.2 fun b hb => hS.renamed _ n (hS.name _ (h.name b hb))
  admits := List.forall₂_map_left_iff.2 h.admits

/-- The variables in scope where copies of bound variables are bound too. -/
def withCopies (Λ : Locals) (n : Nat) (bs : List Source.Binder) (τs : List Typ) : Locals :=
  { (Λ.bind bs τs).bind (renamed n bs) τs with formals := none }

/-- Copies fill the bound variables. -/
theorem fills_toCopies (span : Span) (hbinds : Source.Binds S₀ bs τs) (hΛ : Λ.formals.isSome)
    (hplain : Λ.Plain)
    (hfresh : ∀ x t, Λ.annotated x = some t → ∀ b ∈ bs, x ≠ Naming.renamed b.1 n) :
    Fills S (toCopies span n bs) this (Λ.bind bs τs) this (withCopies Λ n bs τs) e where
  formals := rfl
  own := .inl (by simpa [Locals.bind] using hΛ)
  receiver _ _ hτ := ⟨hτ, hplain.bind.receiver⟩
  var x _ t ht τ hτ := by
    rw [toCopies, Subst.ofBindings, Subst.lookup_foldl_lastIndex, names_copies]
    cases hn : lastIndex (bs.map (·.1)) x with
    | none =>
      -- a variable from outside is none of the copies
      have hx := lastIndex_eq_none.1 hn
      have hcopy : x ∉ (renamed n bs).map (·.1) := by
        intro hmem
        obtain ⟨_, hname, heq⟩ := List.mem_map.1 (names_renamed n bs ▸ hmem)
        obtain ⟨b, hb, rfl⟩ := List.mem_map.1 hname
        exact hfresh x t ((Locals.annotated_of_notMem hx).symm.trans ht) b hb heq.symm
      have hann : ((Λ.bind bs τs).bind (renamed n bs) τs).annotated x =
          (Λ.bind bs τs).annotated x := Locals.annotated_of_notMem hcopy
      exact ⟨(Locals.actual_of_notMem hcopy).trans hτ, hplain.bind.argument x, t, hann.trans ht,
        rfl, .refl t⟩
    | some k =>
      obtain ⟨hann, hact⟩ := Locals.bind_lastIndex (Λ := Λ) hbinds.length hn
      obtain ⟨b, hb, rfl⟩ := Option.map_eq_some_iff.1 (hann.symm.trans ht)
      have hplace : τs[k]? = some τ := hact.symm.trans hτ
      obtain ⟨τ', hτ', hadm⟩ := forall₂_getElem? hbinds.admits hb
      obtain rfl : τ' = τ := Option.some.inj (hτ'.symm.trans hplace)
      obtain rfl : b.1 = x := by
        have hname := getElem?_lastIndex hn
        rw [List.getElem?_map, hb] at hname
        exact Option.some.inj hname
      dsimp only
      rw [List.getElem?_map, hb]
      refine ⟨.refl _, ?_, fun Λ'' hΛ'' hagree => ?_⟩
      · rw [hplain.bind.argument]
        rfl
      · obtain ⟨hann'', hact''⟩ := hagree (Naming.renamed b.1 n) (Expr.mem_freeVars_self _ _)
        have hlen : τs.length = (renamed n bs).length := by simp [renamed, hbinds.length]
        obtain ⟨hann', hact'⟩ := Locals.bind_lastIndex (Λ := Λ.bind bs τs) hlen
          ((lastIndex_renamed b.1).trans hn)
        refine .var (t := b.2) (hann''.trans ?_) rfl (.refl _) (by simp [hΛ'']) (hact''.trans ?_)
          hadm
        · exact hann'.trans (by simp [renamed, hb])
        · exact hact'.trans hplace

end Induction

/-! ## Induction -/

section

variable {Δ : Vocabulary} {env : Env} {v : View} {hasThis : Bool} {Γ : Typing}

/-- The goal of a quantifier is Boolean wherever its range and its body are. -/
theorem quantifierGoal_sorted {range : Option Source.Expr} {body : Source.Expr} {t : Subst}
    (h : ∀ e, e = body ∨ e ∈ range →
      LowersSorted Δ env v hasThis Γ (e.subst t) ∧ (e.subst t).typ.sort = .bool) :
    ∃ g, (quantifierGoal v range body t).Returns env g ∧ SortedAs Δ env v hasThis Γ g .bool := by
  obtain ⟨⟨b, hb, hbs⟩, hbool⟩ := h body (.inl rfl)
  rw [hbool] at hbs
  cases range with
  | none => exact ⟨b, hb.bind rfl, hbs⟩
  | some r =>
    obtain ⟨⟨x, hx, hxs⟩, hbool⟩ := h r (.inr rfl)
    rw [hbool] at hxs
    exact ⟨.imp x b, hb.bind (hx.bind rfl), fun G hG => Expr.sort?_imp (hxs G hG) (hbs G hG)⟩

variable (v hasThis) in
/-- The cases of induction are tests of a variable. -/
theorem Induction.caseSplit_sorted (hS : Signed Δ env) {vars : List Source.Binder}
    (hvars : ∀ b ∈ vars, Γ b.1 = some b.2 ∧ b.2.Resolved env.context) :
    ∃ cases, (caseSplit vars).Returns env cases ∧
      ∀ e ∈ cases, SortedAs Δ env v hasThis Γ e .bool := by
  fun_induction caseSplit vars with
  | case1 => exact ⟨[.tt], rfl, List.forall_mem_singleton.2 fun _ _ => rfl⟩
  | case2 x p ts vars =>
    obtain ⟨hx, d, hd⟩ := hvars _ List.mem_cons_self
    refine ⟨_, ExprM.Returns.bind (ExprM.returns_datatype.2 hd) rfl,
      List.forall_mem_map.2 fun k hk G hG => ?_⟩
    exact WhereClause.sort?_isCtor hS hd hk (hG.vars hx).2
  | case3 b vars _ ih => exact ih fun b' hb' => hvars b' (List.mem_cons_of_mem _ hb')

end

/-- A predicate whose body may take the place of calls in an environment. -/
def Source.Function.Opens (env : Env) (f : Function) : Prop :=
  env.module = some f.name.module ∧ f.isHidden = false ∧ f.result.2 = .bool

/-- Where goals are split whose predicates are generic. Names of the source are not reserved, also
with numbers, and none of them is a copy that is still to be made. -/
structure Source.Conventions.Hold (S : Conventions) (Δ : Vocabulary) (c : Context) (s : Progress)
    (v : View) (this : Option Typ) (hasThis : Bool) : Prop where
  signed : Signed Δ (s.env c)
  serves : S.filled.Serves this (s.env c) v hasThis
  receives : S.Receives this
  settled : ∀ x, S.mayBind x → Settled s.decl.counter x
  predicates : ∀ f callee, c.function f = .ok callee → callee.Opens (s.env c) →
    ∀ b ∈ callee.body, b.IsGeneric S (S.accepts f) callee.owner callee.params

section

variable {S : Conventions} {Δ : Vocabulary} {c : Context} {s₀ : Progress} {v : View}
  {this : Option Typ} {hasThis : Bool} {Λ : Locals} {bs vars : List Source.Binder} {τs : List Typ}

theorem Source.Conventions.Renames.serves {S₀ : Conventions} {env : Env} (h : S₀.Renames S)
    (hS : S.Serves this env v hasThis) : S₀.Serves this env v hasThis where
  context := h.context.symm.trans hS.context
  apart x hx := hS.apart x (h.name x hx)
  this := hS.this
  implicit himplicit := hS.implicit (h.implicit.trans himplicit)

/-- The measure went down from the variables to their copies, which is Boolean where both are
bound. -/
theorem Induction.sort?_decreases (hS : Signed Δ (s₀.env c)) {n : Nat} {G : Sorts} {Γ : Typing}
    (hG : Scope Δ (s₀.env c) v hasThis Γ G)
    (hold : ∀ b ∈ vars, Γ b.1 = some b.2)
    (hnew : ∀ b ∈ vars, Γ (Naming.renamed b.1 n) = some b.2) :
    (Termination.decreases false (varValues vars) (varValues (renamed n vars))).sort? Δ G =
      some .bool := by
  refine Termination.sort?_decreases hS.covers.operations hG.null false
    (List.forall_mem_map.2 fun b hb => ?_)
    (List.forall_mem_map.2 (List.forall_mem_map.2 fun b hb => ?_))
  · exact (hG.vars (hold b hb)).2
  · exact (hG.vars (hnew b hb)).2

/-- What is assumed of smaller values is Boolean. -/
theorem Induction.hypothesis_sorted (h : S.Hold Δ c s₀ v this hasThis) {span : Span}
    (hbinds : Source.Binds S bs τs) (hbs : ∀ b ∈ bs, b.2.Resolved (s₀.env c).context)
    (hvars : ∀ b ∈ vars, b ∈ bs) {goal : Subst → ExprM IL.Expr} (hstable : ∀ t, (goal t).Stable)
    (hgoal : ∀ n, s₀.decl.counter < n → ∃ g, (goal (toCopies span n bs)).Returns (s₀.env c) g ∧
      SortedAs Δ (s₀.env c) v hasThis (withCopies Λ n bs τs).annotated g .bool) :
    (hypothesis v span bs vars goal).Delivers c s₀
      (SortedAs Δ (s₀.env c) v hasThis (Λ.bind bs τs).annotated · .bool) := by
  refine DeclM.Delivers.freshId.bind fun n hn => ?_
  have hcopies := binds_renamed S.renames_filled n hbinds
  have hnames : ∀ b ∈ renamed n bs, ¬ Reserved (s₀.env c) v b.1 :=
    fun b hb => h.serves.apart _ (hcopies.name b hb)
  have hresolved : ∀ b ∈ renamed n bs, b.2.Resolved (s₀.env c).context := forall_renamed hbs
  obtain ⟨w, hw, hws⟩ := bindersWhere_sorted v hasThis h.signed
    fun b hb => ⟨hnames b hb, hresolved b hb⟩
  obtain ⟨g, hg, hgs⟩ := hgoal n hn
  refine (DeclM.Delivers.ofExpr (bindersWhere_stable _ _) ⟨w, hw, rfl⟩).bind fun w' hw' => ?_
  refine (DeclM.Delivers.ofExpr (hstable _) ⟨g, hg, rfl⟩).bind fun g' hg' => .pure fun G hG => ?_
  obtain ⟨rfl, rfl⟩ : w' = w ∧ g' = g := ⟨hw'.symm, hg'.symm⟩
  have hscope := hG.bind h.signed hnames
  have hwhere := hws hscope (sorts_of_nodup hcopies.nodup)
  refine Expr.sort?_all (Expr.sort?_imp (Expr.sort?_conj₂ hwhere
    (sort?_decreases h.signed hscope (fun b hb => ?_) fun b hb => ?_)) (hgs _ hscope)) (by simp)
  · -- a source name is none of the copies
    have hcopy : b.1 ∉ (renamed n bs).map (·.1) := by
      intro hmem
      obtain ⟨x, -, heq⟩ := List.mem_map.1 (names_renamed n bs ▸ hmem)
      exact h.settled _ (hbinds.name b (hvars b hb)) n hn x heq.symm
    rw [Typing.bind_of_notMem hcopy]
    exact Typing.bind_of_nodup hbinds.nodup (hvars b hb)
  · exact Typing.bind_of_nodup hcopies.nodup (List.mem_map_of_mem (hvars b hb))

/-- What is to be proved of a quantifier by induction is Boolean. -/
theorem quantifierObligations_sorted (h : S.Hold Δ c s₀ v this hasThis) {span : Span}
    {r : Option Source.Expr} {body : Source.Expr} (hΛ : Λ.formals.isSome) (hplain : Λ.Plain)
    (hscope : ∀ x t, Λ.annotated x = some t → S.mayBind x) (hbinds : Source.Binds S bs τs)
    (hbs : ∀ b ∈ bs, b.2.Resolved S.context) (hvars : ∀ b ∈ vars, b ∈ bs)
    (htyped : ∀ e, e = body ∨ e ∈ r →
      (∃ τ, HasType S this (Λ.bind bs τs) e τ) ∧ e.typ.sort = .bool) :
    (quantifierObligations v span bs vars r body).Delivers c s₀
      (∀ e ∈ ·, SortedAs Δ (s₀.env c) v hasThis Λ.annotated e .bool) := by
  have hbs : ∀ b ∈ bs, b.2.Resolved (s₀.env c).context := h.serves.context ▸ hbs
  have hserves := S.renames_filled.serves h.serves
  have hnames : ∀ b ∈ bs, ¬ Reserved (s₀.env c) v b.1 :=
    fun b hb => hserves.apart _ (hbinds.name b hb)
  have hcopies : ∀ n, s₀.decl.counter < n → ∃ g,
      (quantifierGoal v r body (Induction.toCopies span n bs)).Returns (s₀.env c) g ∧
        SortedAs Δ (s₀.env c) v hasThis (Induction.withCopies Λ n bs τs).annotated g .bool := by
    refine fun n hn => quantifierGoal_sorted fun e he => ?_
    obtain ⟨⟨τ, hτ⟩, hbool⟩ := htyped e he
    have hfills : Fills S.filled (Induction.toCopies span n bs) this (Λ.bind bs τs) this
        (Induction.withCopies Λ n bs τs) e :=
      Induction.fills_toCopies span hbinds hΛ hplain
        fun x t hx b hb => h.settled x (hscope x t hx) n hn b.1
    exact ⟨(hτ.subst S.renames_filled hfills).lowersSorted h.signed h.serves,
      (hfills.typ_admits hτ).sort_eq_of hbool (by decide)⟩
  obtain ⟨g, hg, hgs⟩ : ∃ g, (quantifierGoal v r body {}).Returns (s₀.env c) g ∧
      SortedAs Δ (s₀.env c) v hasThis (Λ.annotated.bind bs) g .bool := by
    refine quantifierGoal_sorted fun e he => ?_
    obtain ⟨⟨τ, hτ⟩, hbool⟩ := htyped e he
    rw [Expr.subst_empty]
    exact ⟨hτ.lowersSorted h.signed hserves, hbool⟩
  obtain ⟨w, hw, hws⟩ := bindersWhere_sorted v hasThis h.signed
    fun b hb => ⟨hnames b hb, hbs b hb⟩
  obtain ⟨cases, hcases, hsorted⟩ := Induction.caseSplit_sorted v hasThis h.signed
    (Γ := Λ.annotated.bind bs)
    fun b hb => ⟨Typing.bind_of_nodup hbinds.nodup (hvars b hb), hbs b (hvars b hb)⟩
  show DeclM.Delivers (do
    let ih ← Induction.hypothesis v span bs vars (quantifierGoal v r body)
    let g ← DeclM.ofExpr (quantifierGoal v r body {})
    let wheres ← DeclM.ofExpr (bindersWhere v.heap bs)
    let cases ← DeclM.ofExpr (Induction.caseSplit vars)
    return cases.map fun e => IL.Expr.all (sortBinders bs) []
      (.imp (.conj [wheres, e, ih]) g)) c s₀ _
  refine (Induction.hypothesis_sorted h hbinds hbs hvars (quantifierGoal_stable r body)
    hcopies).bind fun ih hih => ?_
  refine (DeclM.Delivers.ofExpr (quantifierGoal_stable ..) ⟨g, hg, rfl⟩).bind fun _ hg => ?_
  refine (DeclM.Delivers.ofExpr (bindersWhere_stable ..) ⟨w, hw, rfl⟩).bind fun _ hw => ?_
  refine (DeclM.Delivers.ofExpr (caseSplit_stable _) ⟨cases, hcases, rfl⟩).bind
    fun _ hcases => .pure ?_
  subst hg hw hcases
  refine List.forall_mem_map.2 fun e he G hG => ?_
  have hscope := hG.bind h.signed hnames
  refine Expr.sort?_all (Expr.sort?_imp (Expr.sort?_conj ?_) (hgs _ hscope)) (by simp)
  simp only [List.forall_mem_cons, List.not_mem_nil, false_implies, implies_true, and_true]
  exact ⟨hws hscope (sorts_of_nodup hbinds.nodup), hsorted e he _ hscope, hih _ hscope⟩

/-! ## Opened calls -/

/-- What a call is opened to, if it is. -/
theorem openedBody?_returns (env : Env) (callee : Function) (recv : Option Source.Expr)
    (args : List Source.Expr) :
    ∃ o, (openedBody? callee recv args).Returns env o ∧ ∀ body ∈ o, callee.Opens env ∧
      ∃ b ∈ callee.body, body = b.subst (callee.passing recv args) := by
  unfold openedBody?
  have hsame : (ExprM.isSameModule callee.name).Returns env
      (env.module == some callee.name.module) := rfl
  cases hhidden : !(env.module == some callee.name.module) || callee.isHidden with
  | true => exact ⟨none, hsame.bind (by simp [hhidden]), by simp⟩
  | false =>
    obtain ⟨hmodule, hvisible⟩ := Bool.or_eq_false_iff.1 hhidden
    split
    · rename_i b hbool hbody
      exact ⟨_, hsame.bind (by simp only [hhidden]; rfl), fun body hmem =>
        ⟨⟨by simpa using hmodule, hvisible, hbool⟩, b, hbody, (Option.some.inj hmem).symm⟩⟩
    · exact ⟨none, hsame.bind (by simp [hhidden]), by simp⟩

/-- The body that takes the place of a call is Boolean at the arguments. -/
theorem Source.HasType.opened {S₀ : Conventions} (h : S.Hold Δ c s₀ v this hasThis)
    (hS₀ : S₀.Renames S.filled) (hΛ : Λ.Plain) {i : Info} {f : Path} {recv : Option Source.Expr}
    {args : List Source.Expr} {τ : Typ} (hcall : HasType S₀ this Λ (.call i f recv args) τ)
    {callee : Function} (hf : c.function f = .ok callee) (hopens : callee.Opens (s₀.env c))
    {b body : Source.Expr} (hb : b ∈ callee.body)
    (hbody : body = b.subst (callee.passing recv args)) :
    HasType S.filled this { Λ with formals := none } body .bool ∧ body.typ.sort = .bool := by
  cases hcall with
  | @call _ _ _ r ps callee' _ hf' hthis hrecv hargs haccepts htyp hadm hr hps =>
    obtain rfl : callee' = callee := by
      rw [← hS₀.context, h.serves.context] at hf'
      exact Except.ok.inj (hf'.symm.trans hf)
    have hannotations : ps.map (·.1.typIn Λ) = ps.map (·.1.typ) :=
      List.map_congr_left fun _ _ => Expr.typIn_of_plain hΛ
    have haccepts : S.accepts f (ps.map (·.1.typ)) := by
      rw [← hannotations]
      exact hS₀.accepts ▸ haccepts
    refine (h.predicates f callee' hf hopens b hb).at_arguments S.renames_filled h.receives.ref
      haccepts hargs (fun p hp => ⟨hrecv p hp, (hr p hp).admits, (hr p hp).supplies hS₀ hΛ⟩)
      (fun p hp => (hps p hp).supplies hS₀ hΛ) (fun howner hnone => ?_) hbody
    exact h.receives.implicit (hS₀.implicit.trans (hthis howner hnone))

/-! ## Parts of goals -/

/-- The parts of a goal are Boolean where it stands. -/
def SortedParts (Δ : Vocabulary) (env : Env) (v : View) (hasThis : Bool) (Γ : Typing)
    (parts : List GoalPart) : Prop :=
  ∀ p ∈ parts, SortedAs Δ env v hasThis Γ p.expr .bool

namespace SortedParts

variable {env : Env} {Γ Γ' : Typing} {parts parts' : List GoalPart}

theorem single {e : IL.Expr} (h : SortedAs Δ env v hasThis Γ e .bool) (kind : PartKind)
    (span : Span) : SortedParts Δ env v hasThis Γ [⟨kind, e, span⟩] :=
  List.forall_mem_singleton.2 h

theorem append (h : SortedParts Δ env v hasThis Γ parts)
    (h' : SortedParts Δ env v hasThis Γ parts') :
    SortedParts Δ env v hasThis Γ (parts ++ parts') :=
  List.forall_mem_append.2 ⟨h, h'⟩

theorem wrapAll {wrap : IL.Expr → IL.Expr} (h : SortedParts Δ env v hasThis Γ' parts)
    (hwrap : ∀ e, SortedAs Δ env v hasThis Γ' e .bool →
      SortedAs Δ env v hasThis Γ (wrap e) .bool) :
    SortedParts Δ env v hasThis Γ (GoalPart.wrapAll wrap parts) :=
  List.forall_mem_map.2 fun p hp => hwrap _ (h p hp)

/-- Parts under a condition. -/
theorem imp {a : IL.Expr} (ha : SortedAs Δ env v hasThis Γ a .bool)
    (h : SortedParts Δ env v hasThis Γ parts) :
    SortedParts Δ env v hasThis Γ (GoalPart.wrapAll (.imp a) parts) :=
  h.wrapAll fun _ he G hG => Expr.sort?_imp (ha G hG) (he G hG)

/-- Parts under the negation of a condition. -/
theorem impNeg {a : IL.Expr} (ha : SortedAs Δ env v hasThis Γ a .bool)
    (h : SortedParts Δ env v hasThis Γ parts) :
    SortedParts Δ env v hasThis Γ (GoalPart.wrapAll (.imp a.neg) parts) :=
  h.imp fun G hG => Expr.sort?_neg (ha G hG)

theorem atCall (h : SortedParts Δ env v hasThis Γ parts) (span : Span) :
    SortedParts Δ env v hasThis Γ (GoalPart.atCall span parts) :=
  List.forall_mem_map.2 fun p hp => h p (List.mem_of_mem_filter hp)

end SortedParts

theorem selectedVars_returns (env : Env) (induct : Bool) (attr : Induction)
    (bs : List Source.Binder) (es : List Source.Expr) :
    ∃ vars, (selectedVars induct attr bs es).Returns env vars ∧ (∀ b ∈ vars, b ∈ bs) ∧
      (vars ≠ [] → induct = true) := by
  cases induct with
  | false => exact ⟨[], rfl, by simp⟩
  | true =>
    cases attr with
    | off => exact ⟨[], rfl, by simp⟩
    | vars xs => exact ⟨_, rfl, fun b hb => List.mem_of_mem_filter hb, fun _ => rfl⟩
    | default =>
      obtain ⟨found, hfound⟩ : ∃ found,
          (Induction.candidates env.context.options.induction es).Returns env found := by
        rcases env.context.options.induction with _ | _ | _ | level <;> exact ⟨_, rfl⟩
      exact ⟨_, ExprM.Returns.bind (ExprM.returns_options.2 rfl) (hfound.bind rfl),
        fun b hb => List.mem_of_mem_filter hb, fun _ => rfl⟩

/-- A formula is lowered to one. -/
theorem Source.HasType.delivers {S₀ : Conventions} {e : Source.Expr} {τ : Typ}
    (h : S.Hold Δ c s₀ v this hasThis) (hS₀ : S₀.Renames S.filled) (he : HasType S₀ this Λ e τ)
    (hbool : e.typ.sort = .bool) :
    (DeclM.ofExpr (lowerExpr v e)).Delivers c s₀
      (SortedAs Δ (s₀.env c) v hasThis Λ.annotated · .bool) :=
  .ofExpr (lowerExpr_stable e v) (hbool ▸ he.lowersSorted h.signed (hS₀.serves h.serves))

/-- The variables of a goal as it stands in the source. -/
structure Source.Locals.IsSource (S : Conventions) (Λ : Locals) : Prop where
  formals : Λ.formals = some ⟨none, fun _ => none⟩
  name : ∀ x t, Λ.annotated x = some t → S.mayBind x

theorem Source.Locals.IsSource.bind (h : Λ.IsSource S) (hbs : ∀ b ∈ bs, S.mayBind b.1) :
    (Λ.bind bs τs).IsSource S where
  formals := by simp [Locals.bind, h.formals]
  name x t ht := by
    by_cases hx : x ∈ bs.map (·.1)
    · obtain ⟨b, hb, rfl⟩ := List.mem_map.1 hx
      exact hbs b hb
    · exact h.name x t ((Locals.annotated_of_notMem hx).symm.trans ht)

variable {height fuel : Nat} {induct : Bool} {goal : Source.Expr}

/-- The splitter gives Boolean parts of a goal wherever it is well typed. Induction is only on
quantifiers of the source. -/
def SplitsSorted (S : Conventions) (Δ : Vocabulary) (c : Context) (s₀ : Progress) (v : View)
    (this : Option Typ) (hasThis : Bool) (height fuel : Nat) (induct : Bool)
    (goal : Source.Expr) : Prop :=
  ∀ ⦃S₀ : Conventions⦄ ⦃Λ : Locals⦄ ⦃τ : Typ⦄, S₀.Renames S.filled → Λ.Plain →
    HasType S₀ this Λ goal τ → goal.typ.sort = .bool → (induct = true → S₀ = S ∧ Λ.IsSource S) →
      (splitGoal v height fuel induct goal).Delivers c s₀
        (SortedParts Δ (s₀.env c) v hasThis Λ.annotated)

/-- Below binders of the source, the variables are those of the source. -/
theorem Source.Locals.IsSource.below {S₀ : Conventions}
    (h : induct = true → S₀ = S ∧ Λ.IsSource S) (hbs : ∀ b ∈ bs, S₀.mayBind b.1) :
    induct = true → S₀ = S ∧ (Λ.bind bs τs).IsSource S := by
  intro hinduct
  obtain ⟨rfl, hsource⟩ := h hinduct
  exact ⟨rfl, hsource.bind hbs⟩

theorem splitsSorted_letIn (h : S.Hold Δ c s₀ v this hasThis) {i : Info}
    {bs : List (String × Source.Expr)} {body : Source.Expr}
    (ih : SplitsSorted S Δ c s₀ v this hasThis height fuel induct body) :
    SplitsSorted S Δ c s₀ v this hasThis height fuel induct (.letIn i bs body) := by
  intro S₀ Λ τ hS₀ hΛ hgoal hbool hinduct
  have hserves := hS₀.serves h.serves
  rw [splitGoal]
  cases hgoal with
  | @letIn _ _ bs _ _ hnodup hnames hkeep htyp hbody hadm hbs he =>
    have hnames : ∀ b ∈ bs.map fun b => (b.1, b.2.1.typ), S₀.mayBind b.1 :=
      List.forall_mem_map.2 hnames
    have hbindings : ∀ p ∈ bs.map fun b => (b.1, b.2.1),
        LowersSorted Δ (s₀.env c) v hasThis Λ.annotated p.2 :=
      List.forall_mem_map.2 fun b hb => (hbs b hb).lowersSorted h.signed hserves
    obtain ⟨values, hvalues, hsorted⟩ := lowerBindings_sorted hbindings
    refine (DeclM.Delivers.ofExpr (lowerBindings_stable v _) ⟨values, hvalues, rfl⟩).bind
      fun _ hvalues => ?_
    refine (ih hS₀ hΛ.bind he (htyp.symm.trans hbool) (Locals.IsSource.below hinduct hnames)).bind
      fun ps hps => .pure (hps.wrapAll fun a ha G hG => ?_)
    subst hvalues
    have hbindings := hsorted G hG
    rw [List.map_map] at hbindings
    exact Expr.sort?_lets hbindings
      (ha _ (hG.bind h.signed fun b hb => hserves.apart _ (hnames b hb)))

theorem splitsSorted_all (h : S.Hold Δ c s₀ v this hasThis) {i : Info}
    {bs : List Source.Binder} {r : Option Source.Expr} {body : Source.Expr}
    {ts : List (List Source.Expr)} {attr : Induction}
    (ih : SplitsSorted S Δ c s₀ v this hasThis height fuel induct body) :
    SplitsSorted S Δ c s₀ v this hasThis height fuel induct (.quant i .all bs r body ts attr) := by
  intro S₀ Λ τ hS₀ hΛ hgoal hbool hinduct
  have hserves := hS₀.serves h.serves
  rw [splitGoal_all]
  have hwhole := hgoal.delivers h hS₀ hbool
  cases hgoal with
  | @quant _ _ _ _ τs r _ ts _ _ τe hbinds hbs htyp hbools hadm hr he hts =>
    have hnames : ∀ b ∈ bs, ¬ Reserved (s₀.env c) v b.1 :=
      fun b hb => hserves.apart _ (hbinds.name b hb)
    obtain ⟨w, hw, hws⟩ := bindersWhere_sorted v hasThis h.signed
      fun b hb => ⟨hnames b hb, hserves.context ▸ hbs b hb⟩
    obtain ⟨u, hu, -, hus⟩ := lowerExpr?_sorted
      (forall_mem_map_fst fun p hp => (hr p hp).lowersSorted h.signed hserves)
      (forall_mem_map_fst (P := (·.typ.sort = .bool)) hbools.2)
    obtain ⟨given, hgiven, hgivens⟩ := lowerTriggers_sorted (List.forall_mem_map.2 fun t ht =>
      List.forall_mem_map.2 fun p hp => (hts t ht p hp).lowersSorted h.signed hserves)
    obtain ⟨vars, hvars, hmem, hind⟩ := selectedVars_returns (s₀.env c) induct attr bs
      (body :: (r.map (·.1)).toList)
    refine (DeclM.Delivers.ofExpr (bindersWhere_stable ..) ⟨w, hw, rfl⟩).bind fun _ hw' => ?_
    refine (DeclM.Delivers.ofExpr (lowerExpr?_stable ..) ⟨u, hu, rfl⟩).bind fun _ hu' => ?_
    refine DeclM.Delivers.context.bind fun _ hc => ?_
    refine (DeclM.Delivers.ofExpr (lowerTriggers_stable ..) ⟨given, hgiven, rfl⟩).bind
      fun _ hgiven' => ?_
    refine (DeclM.Delivers.ofExpr (selectedVars_stable ..) ⟨vars, hvars, rfl⟩).bind
      fun _ hvars' => ?_
    subst hw' hu' hc hgiven' hvars'
    split
    · have hbelow : induct = true → S₀ = S ∧ (Λ.bind bs τs).IsSource S :=
        Locals.IsSource.below hinduct hbinds.name
      refine (ih hS₀ hΛ.bind he hbools.1 hbelow).bind fun ps hps => .pure (hps.wrapAll fun a ha G hG => ?_)
      have hscope := hG.bind h.signed hnames
      have hmatrix : (IL.Expr.imp (.conj (w :: u.toList)) a).sort? Δ (G.bind (sortBinders bs)) =
          some .bool := by
        refine Expr.sort?_imp (Expr.sort?_conj (List.forall_mem_cons.2
          ⟨hws hscope (sorts_of_nodup hbinds.nodup), fun x hx => ?_⟩)) (ha _ hscope)
        exact hus x (Option.mem_toList.1 hx) _ hscope
      refine Expr.sort?_all hmatrix ?_
      split
      · exact Expr.select_sorted (by simp [hmatrix])
      · exact hgivens _ hscope
    · rename_i hne
      obtain ⟨rfl, hsource⟩ := hinduct (hind (by simpa using hne))
      refine (quantifierObligations_sorted h (by simp [hsource.formals]) hΛ hsource.name hbinds
        hbs hmem (fun e he' => ?_)).bind fun os hos => hwhole.bind fun g hg =>
          .pure (.append (List.forall_mem_map.2 hos) (.single hg .free i.span))
      rcases he' with rfl | he'
      · exact ⟨⟨τe, he⟩, hbools.1⟩
      · obtain ⟨p, hp, rfl⟩ := Option.map_eq_some_iff.1 he'
        exact ⟨⟨p.2, hr p hp⟩, hbools.2 p hp⟩

/-- A call gives Boolean parts if the bodies do that may take its place. -/
theorem splitsSorted_call (h : S.Hold Δ c s₀ v this hasThis) {i : Info} {f : Path}
    {recv : Option Source.Expr} {args : List Source.Expr} {lower : Nat}
    (ihlower : ∀ body, SplitsSorted S Δ c s₀ v this hasThis lower (openingBound c body) false body)
    (ihless : ∀ less, fuel = less + 1 →
      ∀ body, SplitsSorted S Δ c s₀ v this hasThis (lower + 1) less false body) :
    SplitsSorted S Δ c s₀ v this hasThis (lower + 1) fuel induct (.call i f recv args) := by
  intro S₀ Λ τ hS₀ hΛ hgoal hbool _
  have hserves := hS₀.serves h.serves
  rw [splitGoal]
  obtain ⟨callee, hf⟩ : ∃ callee, c.function f = .ok callee := by
    cases hgoal with
    | call hf => exact ⟨_, h.serves.context ▸ hS₀.context ▸ hf⟩
  obtain ⟨o, ho, hopened⟩ := openedBody?_returns (s₀.env c) callee recv args
  refine (DeclM.Delivers.ofExpr (.function f) ⟨callee, ExprM.returns_function.2 hf, rfl⟩).bind
    fun _ hcallee => ?_
  subst hcallee
  refine (hgoal.delivers h hS₀ hbool).bind fun call hcall => ?_
  refine (DeclM.Delivers.ofExpr (openedBody?_stable ..) ⟨o, ho, rfl⟩).bind fun _ ho' => ?_
  subst ho'
  cases o with
  | none => exact .pure (.single hcall _ _)
  | some body =>
    obtain ⟨hopens, b, hb, hbody⟩ := hopened body rfl
    obtain ⟨hbody, hformula⟩ := hgoal.opened h hS₀ hΛ hf hopens hb hbody
    have hrenames := S.renames_filled.target
    have hfilled : ({ Λ with formals := none } : Locals).Plain := Locals.plain_of_none rfl
    obtain ⟨values, hvalues, hcan⟩ := hgoal.canCall_sorted h.signed hserves
    refine (DeclM.Delivers.ofExpr (lowerCallArgs_stable ..) ⟨values, hvalues, rfl⟩).bind
      fun _ hvalues' => ?_
    subst hvalues'
    refine (hbody.delivers h hrenames hformula).bind fun unfolded hunfolded => ?_
    have hrecursive : (ExprM.isRecursive f).Returns (s₀.env c) _ := rfl
    refine (DeclM.Delivers.ofExpr (.isRecursive f) ⟨_, hrecursive, rfl⟩).bind fun _ _ => ?_
    -- what an opened call gives, for any parts of its body
    have hparts {inner : List GoalPart}
        (hinner : SortedParts Δ (s₀.env c) v hasThis Λ.annotated inner) :
        SortedParts Δ (s₀.env c) v hasThis Λ.annotated ([⟨.free, call, i.span⟩,
          ⟨.free, .imp (.app (Naming.layered f .canCall) values) unfolded, i.span⟩] ++
            GoalPart.atCall i.span inner) :=
      .append (.append (.single hcall _ _)
        (.single (fun G hG => Expr.sort?_imp (hcan G hG) (hunfolded G hG)) _ _))
        (hinner.atCall i.span)
    split
    · refine DeclM.Delivers.context.bind fun _ hc => ?_
      subst hc
      exact (ihlower body hrenames hfilled hbody hformula (by simp)).bind
        fun inner hinner => .pure (hparts hinner)
    · cases fuel with
      | zero => exact .pure (hparts (.single hunfolded _ _))
      | succ less =>
        exact (ihless less rfl body hrenames hfilled hbody hformula (by simp)).bind
          fun inner hinner => .pure (hparts hinner)

/-- The parts of a goal are Boolean, whatever was lowered before. -/
theorem splitGoal_sorted (h : S.Hold Δ c s₀ v this hasThis) (height fuel : Nat) (induct : Bool)
    (goal : Source.Expr) : SplitsSorted S Δ c s₀ v this hasThis height fuel induct goal := by
  fun_induction splitGoal v height fuel induct goal with
  | case1 height fuel induct i a b iha ihb =>
    intro S₀ Λ τ hS₀ hΛ hgoal _ hinduct
    cases hgoal with
    | binary htyp hactual hadm ha hb =>
      rw [splitGoal]
      exact (iha hS₀ hΛ ha htyp.1 hinduct).bind fun ps hps =>
        (ihb hS₀ hΛ hb htyp.2.1 hinduct).bind fun qs hqs => .pure (hps.append hqs)
  | case2 height fuel induct i a b ihb =>
    intro S₀ Λ τ hS₀ hΛ hgoal _ hinduct
    cases hgoal with
    | binary htyp hactual hadm ha hb =>
      rw [splitGoal]
      exact (ha.delivers h hS₀ htyp.1).bind fun x hx =>
        (ihb hS₀ hΛ hb htyp.2.1 hinduct).bind fun ps hps => .pure (hps.imp hx)
  | case3 height fuel induct i a b ihb =>
    intro S₀ Λ τ hS₀ hΛ hgoal _ hinduct
    cases hgoal with
    | binary htyp hactual hadm ha hb =>
      rw [splitGoal]
      exact (ha.delivers h hS₀ htyp.1).bind fun x hx =>
        (ihb hS₀ hΛ hb htyp.2.1 hinduct).bind fun ps hps => .pure (hps.impNeg hx)
  | case4 height fuel induct i t a b iha ihb =>
    intro S₀ Λ τ hS₀ hΛ hgoal hbool hinduct
    cases hgoal with
    | ite htest hbranches hfit hadm ht ha hb =>
      obtain ⟨hformulaa, hformulab⟩ := hbranches hbool
      rw [splitGoal]
      exact (ht.delivers h hS₀ htest).bind fun x hx =>
        (iha hS₀ hΛ ha hformulaa hinduct).bind fun ps hps =>
          (ihb hS₀ hΛ hb hformulab hinduct).bind fun qs hqs =>
            .pure ((hps.imp hx).append (hqs.impNeg hx))
  | case5 height fuel induct i bs body ih => exact splitsSorted_letIn h ih
  | case6 height fuel induct i bs r body ts attr ih => exact splitsSorted_all h ih
  | case7 fuel induct i f recv args =>
    intro S₀ Λ τ hS₀ hΛ hgoal hbool _
    rw [splitGoal]
    exact (hgoal.delivers h hS₀ hbool).bind fun x hx => .pure (.single hx _ _)
  | case8 fuel induct i f recv args lower ihlower ihless =>
    refine splitsSorted_call h (fun body => ihlower body c) fun less hless body => ?_
    subst hless
    exact ihless body
  | case9 height fuel induct goal =>
    intro S₀ Λ τ hS₀ hΛ hgoal hbool _
    rw [splitGoal]
    · exact (hgoal.delivers h hS₀ hbool).bind fun x hx => .pure (.single hx _ _)
    all_goals assumption

end

end ContractLowering
