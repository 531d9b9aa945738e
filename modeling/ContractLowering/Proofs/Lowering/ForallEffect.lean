import ContractLowering.Proofs.Lowering.Assignments
import ContractLowering.Proofs.Lowering.ForallAssign

/-!
# The effect of forall assignments

A forall assignment assumes two facts about the heap after it: selected locations hold their values,
and all others what they held before. Where its check holds for all bound values, exactly one
assignment of values to locations satisfies both (`forallAssign_effect`). The check compares bound
variables with copies of them in the heap before, and the facts look at this heap through a local, so
what expressions select is followed through both changes of scope first (`Selection.Of.alike`). A
variable that is called like a constant breaks this (`forallAssign_no_effect`).
-/

namespace ContractLowering

open IL Source

/-! ## Names that matter -/

/-- An expression mentions names with a property only: nothing changes if others are renamed. -/
def IL.Expr.Confined (Q : String → Prop) (a : IL.Expr) : Prop :=
  ∀ f : String → String, (∀ x, Q x → f x = x) → Renames Q f a a

theorem IL.Expr.Confined.eval_congr {Q : String → Prop} {a : IL.Expr} (h : a.Confined Q)
    {y z : String} (hy : ¬ Q y) (hz : ¬ Q z) (hne : y ≠ z) {M : Model} {old ρ ρ' : M.Valuation}
    (hρ : ∀ x, Q x → ρ x = ρ' x) : a.eval old ρ = a.eval old ρ' := by
  classical
  -- all names that do not matter become one
  let away (u x : String) : String := if Q x then x else u
  have avoids {u : String} (hu : ¬ Q u) : Avoids Q (away u) := by
    intro x
    by_cases hx : Q x
    · exact .inl (if_pos hx)
    · exact .inr (by simpa [away, hx] using hu)
  have eval_away {u : String} (hu : ¬ Q u) (τ : M.Valuation) :
      a.eval old τ = a.eval old (τ ∘ away u) :=
    (h (away u) fun x hx => if_pos hx).eval_eq (avoids hu)
  let mixed : M.Valuation := fun x => if Q x then ρ x else if x = y then ρ y else ρ' z
  have hleft : mixed ∘ away y = ρ ∘ away y := by
    funext x
    by_cases hx : Q x <;> simp [mixed, away, hx, hy]
  have hright : mixed ∘ away z = ρ' ∘ away z := by
    funext x
    by_cases hx : Q x
    · simp [mixed, away, hx, hρ x hx]
    · simp [mixed, away, hx, hz, hne.symm]
  calc a.eval old ρ = a.eval old (mixed ∘ away y) := by rw [eval_away hy, hleft]
    _ = a.eval old mixed := (eval_away hy mixed).symm
    _ = a.eval old (mixed ∘ away z) := eval_away hz mixed
    _ = a.eval old ρ' := by rw [hright, ← eval_away hz]

/-- The names that code of a forall assignment uses for heaps and locations. -/
inductive Scratch : String → Prop
  | heap : Scratch Prelude.heapName
  | prev (n : Nat) : Scratch (Naming.prevHeap n)
  | obj : Scratch Naming.objVar
  | field : Scratch Naming.fieldVar

namespace Scratch

variable {x : String}

theorem not_plain (h : Scratch x) : ¬ Naming.Plain x := by
  have hdollar : '$' ∈ x.toList := by
    cases h with
    | heap | obj | field => decide
    | prev n => simp [Naming.prevHeap]
  exact fun hx => (hx '$' hdollar).1 rfl

theorem dot_notMem (h : Scratch x) : '.' ∉ x.toList := by
  cases h with
  | heap | obj | field => decide
  | prev n =>
    have hdigits : '.' ∉ Nat.toDigits 10 n := fun hm =>
      absurd (Nat.isDigit_of_mem_toDigits (by decide) (by decide) hm) (by decide)
    simpa [Naming.prevHeap] using hdigits

theorem start (h : Scratch x) :
    x.toList.take 2 ∈ [['$', 'H'], ['$', 'p'], ['$', 'o'], ['$', 'f']] := by
  cases h with
  | heap | obj | field => decide
  | prev n => simp [Naming.prevHeap]

end Scratch

/-- A view of the body of a method or an iterator. -/
structure View.InBody (v : View) : Prop where
  heap : v.heap = Prelude.heapVar
  oldHeap : v.oldHeap = .old Prelude.heapName
  this : Naming.Plain (v.this.getD Naming.this)

namespace View.InBody

variable {env : Env} {v : View} {x : String}

/-- Lowered expressions that look at no heap mention no name for heaps and locations. -/
theorem not_scratch (hv : v.InBody) (hdeclared : env.context.Declared env.handles)
    (hx : Reserved env v.old x) : ¬ Scratch x := by
  intro h
  cases hx with
  | heap hx | oldHeap hx =>
    simp only [View.old, hv.oldHeap] at hx
    cases hx
  | this => exact h.not_plain hv.this
  | cls p => simpa [Naming.cls] using h.start
  | field hf =>
    rw [Env.handle_of_declared hdeclared hf] at h
    exact h.dot_notMem (by simp [FieldHandle.ofField, Naming.field])
  | const hx =>
    have hstart := h.start
    simp only [preludeConstants, List.mem_cons, List.not_mem_nil, or_false] at hx
    rcases hx with rfl | rfl | rfl | rfl | rfl | rfl <;> revert hstart <;> decide
  | generated hx =>
    have hstart := h.start
    cases hx <;>
      simp [Naming.boxVar, Naming.indexVar, WhereClause.boxVar, WhereClause.indexVar] at hstart

theorem eq_heapName_or (hv : v.InBody) (hx : Reserved env v x) :
    x = Prelude.heapName ∨ Reserved env v.old x := by
  cases hx with
  | heap hx =>
    rw [hv.heap] at hx
    exact .inl (List.mem_singleton.1 hx)
  | oldHeap hx => exact .inr (.oldHeap hx)
  | this => exact .inr .this
  | cls p => exact .inr (.cls p)
  | field hf => exact .inr (.field hf)
  | const hx => exact .inr (.const hx)
  | generated hx => exact .inr (.generated hx)

/-- A local may keep the heap. -/
theorem heapApart (hv : v.InBody) (hdeclared : env.context.Declared env.handles) (n : Nat) :
    HeapApart env v (Naming.prevHeap n) where
  heap := hv.heap
  reserved hx := by
    have hscratch := hv.not_scratch hdeclared hx
    constructor
    · rintro rfl
      exact hscratch .heap
    · rintro rfl
      exact hscratch (.prev n)

end View.InBody

/-- The names that lowered expressions over plain variables mention. -/
def Nameable (env : Env) (v : View) (x : String) : Prop := Reserved env v x ∨ Naming.Plain x

theorem Nameable.eq_heapName_or {env : Env} {v : View} {x : String} (hv : v.InBody)
    (hdeclared : env.context.Declared env.handles) (hx : Nameable env v x) :
    x = Prelude.heapName ∨ ¬ Scratch x := by
  rcases hx with hx | hx
  · exact (hv.eq_heapName_or hx).imp_right (hv.not_scratch hdeclared)
  · exact .inr fun h => h.not_plain hx

/-! ## Selections in two scopes -/

/-- The parts of two selections are related. -/
structure Selection.Alike (R : IL.Expr → IL.Expr → Prop) (p p' : Selection) : Prop where
  holds : R p.holds p'.holds
  object : R p.object p'.object
  field : R p.field p'.field
  value : R p.value p'.value

/-- Two fields or two elements of related expressions. -/
inductive Source.Lhs.Alike (S : Source.Expr → Source.Expr → Prop) : Lhs → Lhs → Prop
  | field {span span' : Span} {e e' : Source.Expr} {f : FieldId} (h : S e e') :
      Alike S (.field span e f) (.field span' e' f)
  | index {span span' : Span} {a a' i i' : Source.Expr} (ha : S a a') (hi : S i i') :
      Alike S (.index span a i) (.index span' a' i')

section

variable {env : Env} {v v' : View} {R : IL.Expr → IL.Expr → Prop} {d d' : Domain} {lhs lhs' : Lhs}
  {e e' : Source.Expr} {t : Typ} {p p' : Selection}

theorem LocationOf.alike (hR : Congruence env v v' R) (hlhs : lhs.Alike (Related env v v' R) lhs')
    {o f o' f' : IL.Expr} {t t' : Typ} (h : LocationOf env v lhs o f t)
    (h' : LocationOf env v' lhs' o' f' t') : R o o' ∧ R f f' := by
  cases h with
  | field hf ho =>
    cases hlhs with
    | field he =>
      cases h' with
      | field hf' ho' =>
        obtain rfl := Except.ok.inj (hf.symm.trans hf')
        exact ⟨he.lower ho ho', hR.field (Context.id_of_field hf ▸ hf)⟩
  | index hi ho _ =>
    cases hlhs with
    | index ha hidx =>
      cases h' with
      | index hi' ho' _ => exact ⟨ha.lower ho ho', hR.app₁ (hidx.lower hi hi')⟩

/-- Selections by related expressions of related variables. -/
theorem Selection.Of.alike (hR : Congruence env v v' R) (hbs : RelatedVars R d.binders d'.binders)
    (hrange : Option.Rel (Related env v v' R) d.range d'.range)
    (hlhs : lhs.Alike (Related env v v' R) lhs') (he : Related env v v' R e e')
    (hp : p.Of env v d lhs e t) (hp' : p'.Of env v' d' lhs' e' t) : p.Alike R p' := by
  obtain ⟨holds, ⟨r, hloc⟩, hvalue⟩ := hp
  obtain ⟨holds', ⟨r', hloc'⟩, hvalue'⟩ := hp'
  obtain ⟨hobject, hfield⟩ := hloc.alike hR hlhs hloc'
  refine ⟨?_, hobject, hfield, ?_⟩
  · simp only [domainHolds, ExprM.returns_bind, ExprM.returns_pure] at holds holds'
    obtain ⟨w, hw, u, hu, heq⟩ := holds
    obtain ⟨w', hw', u', hu', heq'⟩ := holds'
    rw [heq, heq']
    refine hR.conj (.cons (hR.bindersWhere hR.heap hbs hw hw') ?_)
    cases Related.lowerExpr? hrange hu hu' with
    | none => exact .nil
    | some h => exact .cons h .nil
  · simp only [boxedValue, ExprM.returns_bind, ExprM.returns_pure] at hvalue hvalue'
    obtain ⟨a, ha, heq⟩ := hvalue
    obtain ⟨a', ha', heq'⟩ := hvalue'
    rw [heq, heq', he.typ]
    exact hR.box (hR.convert (he.lower ha ha'))

theorem LocationOf.alike_self {S : Source.Expr → Source.Expr → Prop} {o f : IL.Expr}
    (h : LocationOf env v lhs o f t) (hS : ∀ a ∈ lhs.exprs, S a a) : lhs.Alike S lhs := by
  cases h with
  | field => exact .field (hS _ (by simp [Lhs.exprs]))
  | index => exact .index (hS _ (by simp [Lhs.exprs])) (hS _ (by simp [Lhs.exprs]))

theorem LocationOf.alike_subst {S : Source.Expr → Source.Expr → Prop} {o f : IL.Expr} {s : Subst}
    (h : LocationOf env v lhs o f t) (hS : ∀ a ∈ lhs.exprs, S a (a.subst s)) :
    lhs.Alike S (lhs.subst s) := by
  cases h with
  | field => exact .field (hS _ (by simp [Lhs.exprs]))
  | index => exact .index (hS _ (by simp [Lhs.exprs])) (hS _ (by simp [Lhs.exprs]))

end

/-! ## What is written -/

/-- Bound values are in range, select a location and give it a value. -/
structure Selection.Picks {M : Model} (p : Selection) (old σ : M.Valuation) (o f a : M.Val) :
    Prop where
  holds : Holds old σ p.holds
  object : p.object.eval old σ = o
  field : p.field.eval old σ = f
  value : p.value.eval old σ = a

/-- Some bound values give a location a value. -/
def Selection.Writes {M : Model} (p : Selection) (bs : List Source.Binder) (old ρ : M.Valuation)
    (o f a : M.Val) : Prop :=
  ∃ σ, Model.Assigns (sortBinders bs) ρ σ ∧ p.Picks old σ o f a

/-- Values at locations are as a forall assignment says: where bound values select a location, it
has the value that they give it, and every location has such a value or the one before. -/
structure Selection.Fits {M : Model} (p : Selection) (bs : List Source.Binder)
    (old ρ : M.Valuation) (before after : M.Val → M.Val → M.Val) : Prop where
  written : ∀ o f a, p.Writes bs old ρ o f a → after o f = a
  kept : ∀ o f, M.carrier Prelude.refSort o → M.carrier Prelude.fieldSort f →
    after o f = before o f ∨ ∃ a, p.Writes bs old ρ o f a

section

variable {M : Model} {old ρ ρ' σ σ' : M.Valuation} {o l a b : M.Val} {p p' : Selection}

theorem Selection.Alike.picks {P : String → Prop} {f : String → String}
    (h : p.Alike (Renames P f) p') (hf : Avoids P f) :
    p'.Picks old σ o l a ↔ p.Picks old (σ ∘ f) o l a := by
  constructor
  · rintro ⟨h₁, h₂, h₃, h₄⟩
    exact ⟨(h.holds.holds_iff hf).1 h₁, (h.object.eval_eq hf).symm.trans h₂,
      (h.field.eval_eq hf).symm.trans h₃, (h.value.eval_eq hf).symm.trans h₄⟩
  · rintro ⟨h₁, h₂, h₃, h₄⟩
    exact ⟨(h.holds.holds_iff hf).2 h₁, (h.object.eval_eq hf).trans h₂,
      (h.field.eval_eq hf).trans h₃, (h.value.eval_eq hf).trans h₄⟩

/-- Two valuations that give bound variables the same values. -/
theorem IL.Model.Assigns.exists_same {bs : List IL.Binder} (h : Model.Assigns bs ρ σ)
    (ρ' : M.Valuation) :
    ∃ σ', Model.Assigns bs ρ' σ' ∧ ∀ x, (x ∉ bs.map (·.1) → ρ x = ρ' x) → σ x = σ' x := by
  obtain ⟨as, has, rfl⟩ := h
  refine ⟨_, ⟨as, has, rfl⟩, fun x hx => ?_⟩
  have hnames : ((bs.map (·.1)).zip as).map (·.1) = bs.map (·.1) :=
    List.map_fst_zip (by simp [has.length_eq])
  by_cases hmem : x ∈ bs.map (·.1)
  · exact Model.bind_of_mem (by rwa [hnames])
  · rw [Model.bind_of_notMem (by rwa [hnames]), Model.bind_of_notMem (by rwa [hnames]), hx hmem]

end

/-! ## Variables of a forall assignment -/

/-- The variables of a domain in expressions: all have names of the source, bound variables take
none that lowered code mentions on its own account and neither do their copies, and variables are
typed like their binders. -/
structure Source.Domain.Scopes (env : Env) (v : View) (d : Domain) (es : List Source.Expr) :
    Prop where
  plain : ∀ b ∈ d.binders, Naming.Plain b.1
  binder : ∀ b ∈ d.binders, ¬ Reserved env v b.1
  copy : ∀ b ∈ d.binders, ∀ n, ¬ Reserved env v (Naming.renamed b.1 n)
  typed : ∀ e ∈ es,
    e.Scoped Naming.Plain (PatternFits env.context) (Typing.bind d.binders fun _ => none)
  free : ∀ e ∈ es, ∀ x ∈ e.freeVars, Naming.Plain x

theorem Naming.Plain.ne_renamed {x : String} (hx : Naming.Plain x) (y : String) (n : Nat) :
    x ≠ Naming.renamed y n := by
  rintro rfl
  exact (hx '%' (by simp [Naming.renamed])).2.1 rfl

namespace Source.Domain.Scopes

variable {env : Env} {v : View} {d : Domain} {es : List Source.Expr}

theorem expr_over (h : d.Scopes env v es) {e : Source.Expr} (he : e ∈ es) {Q : String → Prop}
    (hQ : ∀ x, Naming.Plain x → Q x) : e.Over env Q :=
  ⟨⟨_, .mono hQ e (h.typed e he)⟩, fun x hx => hQ x (h.free e he x hx)⟩

theorem apart (h : d.Scopes env v es) (hv : v.InBody) (n : Nat) :
    Copies.Apart ⟨d.binders.map (·.1), n⟩ env v where
  plain x hx := by
    obtain ⟨b, hb, rfl⟩ := List.mem_map.1 hx
    exact fun y => (h.plain b hb).ne_renamed y n
  vars x hx := by
    obtain ⟨b, hb, rfl⟩ := List.mem_map.1 hx
    exact h.binder b hb
  copies x hx := by
    obtain ⟨b, hb, rfl⟩ := List.mem_map.1 hx
    exact h.copy b hb n
  heap x hx := by
    rw [hv.heap] at hx
    obtain rfl := List.mem_singleton.1 hx
    intro y heq
    have hpercent : '%' ∈ Prelude.heapName.toList := by
      rw [heq]
      simp [Copies.name, Naming.renamed]
    exact absurd hpercent (by decide)
  oldHeap x hx := by
    rw [hv.oldHeap] at hx
    cases hx

end Source.Domain.Scopes

/-! ## Selections in other scopes -/

section

variable {env : Env} {v : View} {d : Domain} {lhs : Lhs} {e : Source.Expr} {t : Typ}
  {p p' : Selection} {span : Span} {n : Nat}

/-- A congruence that takes no notice of plain variables relates a selection in two views. -/
theorem Selection.Of.alike_self {v' : View} {R : IL.Expr → IL.Expr → Prop} {Q : String → Prop}
    (hd : d.Scopes env v (Stmt.forallAssign span d lhs e).ownExprs) (hR : Congruence env v v' R)
    (hQ : Indifferent R Q) (hplain : ∀ x, Naming.Plain x → Q x) (hp : p.Of env v d lhs e t)
    (hp' : p'.Of env v' d lhs e t) : p.Alike R p' := by
  have hself : ∀ a ∈ (Stmt.forallAssign span d lhs e).ownExprs, Related env v v' R a a :=
    fun a ha => .self hQ a hR (hd.expr_over ha hplain)
  simp only [Stmt.ownExprs, List.mem_append, Option.mem_toList, List.mem_singleton] at hself
  obtain ⟨r, hloc⟩ := hp.location
  refine Selection.Of.alike hR
    (List.forall₂_same.2 fun b hb => ⟨rfl, hQ.var (hplain _ (hd.plain b hb))⟩)
    (option_rel_same fun a ha => hself a (.inl (.inl ha)))
    (hloc.alike_self fun a ha => hself a (.inl (.inr ha))) (hself e (.inr rfl)) hp hp'

/-- A selection mentions its variables and names that lowered code mentions on its own account. -/
theorem Selection.Of.confined (hd : d.Scopes env v (Stmt.forallAssign span d lhs e).ownExprs)
    (hv : v.InBody) (hp : p.Of env v d lhs e t) {f : String → String}
    (hf : ∀ x, Nameable env v x → f x = x) : p.Alike (Renames (Nameable env v) f) p := by
  have hfixes : Fixes env v (Nameable env v) f := {
    reserved := fun hx => hf _ (.inl hx)
    generated := fun hx => .inl (.generated hx)
    heap := by rw [hv.heap]; trivial
    oldHeap := by rw [hv.oldHeap]; trivial }
  exact Selection.Of.alike_self hd hfixes.congruence (.renames _ _)
    (fun x hx => ⟨.inr hx, hf x (.inr hx)⟩) hp hp

/-- A selection where a local keeps the heap. -/
theorem Selection.Of.alike_kept (hd : d.Scopes env v (Stmt.forallAssign span d lhs e).ownExprs)
    (hv : v.InBody) (hdeclared : env.context.Declared env.handles) (hp : p.Of env v d lhs e t)
    (hp' : p'.Of env { v with heap := .var (Naming.prevHeap n) } d lhs e t) :
    p.Alike (Renames (· ≠ Naming.prevHeap n) (keptIn (Naming.prevHeap n))) p' := by
  refine Selection.Of.alike_self hd (hv.heapApart hdeclared n).congruence (.renames _ _)
    (fun x hx => ?_) hp hp'
  constructor
  · rintro rfl
    exact Scratch.not_plain (.prev n) hx
  · refine keptIn_of_ne ?_
    rintro rfl
    exact Scratch.not_plain .heap hx

/-- A selection with copies in place of the bound variables. -/
theorem Selection.Of.alike_copied (hd : d.Scopes env v (Stmt.forallAssign span d lhs e).ownExprs)
    (hv : v.InBody) (hp : p.Of env v d lhs e t)
    (hp' : p'.Of env v (d.copy n (Induction.toCopies span n d.binders))
      (lhs.subst (Induction.toCopies span n d.binders))
      (e.subst (Induction.toCopies span n d.binders)) t) :
    p.Alike (Copied ⟨d.binders.map (·.1), n⟩ (Copies.rename ⟨d.binders.map (·.1), n⟩)) p' := by
  set k : Copies := ⟨d.binders.map (·.1), n⟩ with hk
  set s := Induction.toCopies span n d.binders with hs
  have hfixes := (hd.apart hv n).fixes_rename
  have hcopies : s.IsCopies k (Typing.bind d.binders fun _ => none) :=
    Induction.isCopies_toCopies span n d.binders _
  have hcopy : ∀ a ∈ (Stmt.forallAssign span d lhs e).ownExprs,
      Related env v v (Copied k k.rename) a (a.subst s) := by
    intro a ha
    have hscoped : a.Scoped (fun x => ¬ k.IsCopy x) (PatternFits env.context)
        (Typing.bind d.binders fun _ => none) := by
      refine Expr.Scoped.mono (fun x hx => ?_) a (hd.typed a ha)
      rintro ⟨y, -, rfl⟩
      exact hx.ne_renamed y n rfl
    exact ⟨Expr.typ_subst_copies hcopies hscoped, lowerExpr_copies a ⟨hcopies, hfixes⟩
      ⟨hscoped, fun x _ => (Induction.copyName_toCopies span n d.binders x).symm⟩⟩
  simp only [Stmt.ownExprs, List.mem_append, Option.mem_toList, List.mem_singleton] at hcopy
  obtain ⟨r, hloc⟩ := hp.location
  refine Selection.Of.alike hfixes.congruence ?_ ?_
    (hloc.alike_subst fun a ha => hcopy a (.inl (.inr ha))) (hcopy e (.inr rfl)) hp hp'
  · show List.Forall₂ _ _ (Induction.renamed n d.binders)
    rw [Induction.renamed, List.forall₂_map_right_iff]
    refine List.forall₂_same.2 fun b hb => ⟨rfl, ?_⟩
    have hvar : Copied k k.rename (.var b.1) (.var (k.rename b.1)) := .var b.1
    rwa [Copies.rename_of_mem (List.mem_map_of_mem hb)] at hvar
  · rw [Domain.copy]
    cases hrange : d.range with
    | none => exact .none
    | some r => exact .some (hcopy r (.inl (.inl hrange)))

end

/-! ## The effect on a heap -/

section

variable {env : Env} {v : View} {d : Domain} {lhs : Lhs} {e : Source.Expr} {t : Typ}
  {p p' : Selection} {span : Span} {n : Nat} {M : Model} {old ρ σ σ' τ : M.Valuation}
  {o l a b : M.Val}

namespace Selection

/-- A selection takes notice of names that its expressions may mention only. -/
theorem Of.picks_congr (hd : d.Scopes env v (Stmt.forallAssign span d lhs e).ownExprs)
    (hv : v.InBody) (hdeclared : env.context.Declared env.handles) (hp : p.Of env v d lhs e t)
    (hσ : ∀ x, Nameable env v x → σ x = σ' x) : p.Picks old σ o l a ↔ p.Picks old σ' o l a := by
  have hprev (m : Nat) : ¬ Nameable env v (Naming.prevHeap m) := fun h => by
    rcases h.eq_heapName_or hv hdeclared with heq | hnot
    · exact ne_prevHeap (by decide) m heq.symm
    · exact hnot (.prev m)
  have heval {c : IL.Expr} (hc : c.Confined (Nameable env v)) : c.eval old σ = c.eval old σ' :=
    hc.eval_congr (hprev 0) (hprev 1) (by decide) hσ
  have hholds := heval fun f hf => (hp.confined hd hv hf).holds
  have hobject := heval fun f hf => (hp.confined hd hv hf).object
  have hfield := heval fun f hf => (hp.confined hd hv hf).field
  have hvalue := heval fun f hf => (hp.confined hd hv hf).value
  constructor
  · rintro ⟨h₁, h₂, h₃, h₄⟩
    exact ⟨by rwa [Holds, ← hholds], hobject.symm.trans h₂, hfield.symm.trans h₃,
      hvalue.symm.trans h₄⟩
  · rintro ⟨h₁, h₂, h₃, h₄⟩
    exact ⟨by rwa [Holds, hholds], hobject.trans h₂, hfield.trans h₃, hvalue.trans h₄⟩

/-- Where a local keeps the heap, the same is written as in that heap. -/
theorem Of.writes_kept (hd : d.Scopes env v (Stmt.forallAssign span d lhs e).ownExprs)
    (hv : v.InBody) (hdeclared : env.context.Declared env.handles) (hp : p.Of env v d lhs e t)
    (hp' : p'.Of env { v with heap := .var (Naming.prevHeap n) } d lhs e t)
    (hprev : τ (Naming.prevHeap n) = ρ Prelude.heapName) (hτ : ∀ x, ¬ Scratch x → τ x = ρ x) :
    p'.Writes d.binders old τ o l a ↔ p.Writes d.binders old ρ o l a := by
  have hbound {x : String} (hx : Scratch x) : x ∉ (sortBinders d.binders).map (·.1) := by
    rw [sortBinders_names]
    intro hmem
    obtain ⟨b, hb, rfl⟩ := List.mem_map.1 hmem
    exact hx.not_plain (hd.plain b hb)
  -- the heap that the local keeps is the one before, and other names have the same values
  have hpicks {σ σ' : M.Valuation} (hσ : Model.Assigns (sortBinders d.binders) ρ σ)
      (hσ' : Model.Assigns (sortBinders d.binders) τ σ') (hsame : ∀ x, ¬ Scratch x → σ' x = σ x) :
      p'.Picks old σ' o l a ↔ p.Picks old σ o l a := by
    rw [(hp.alike_kept hd hv hdeclared hp').picks (avoids_keptIn _)]
    refine hp.picks_congr hd hv hdeclared fun x hx => ?_
    rcases hx.eq_heapName_or hv hdeclared with rfl | hx
    · rw [Function.comp_apply, keptIn, if_pos rfl, hσ'.of_notMem (hbound (.prev n)), hprev,
        hσ.of_notMem (hbound .heap)]
    · have hheap : x ≠ Prelude.heapName := by
        rintro rfl
        exact hx .heap
      rw [Function.comp_apply, keptIn_of_ne hheap, hsame x hx]
  constructor
  · rintro ⟨σ', hσ', hw⟩
    obtain ⟨σ, hσ, hsame⟩ := hσ'.exists_same ρ
    exact ⟨σ, hσ, (hpicks hσ hσ' fun x hx => hsame x fun _ => hτ x hx).1 hw⟩
  · rintro ⟨σ, hσ, hw⟩
    obtain ⟨σ', hσ', hsame⟩ := hσ.exists_same τ
    exact ⟨σ', hσ', (hpicks hσ hσ' fun x hx => (hsame x fun _ => (hτ x hx).symm).symm).2 hw⟩

end Selection

/-- Copies of bound variables take values of the variables. -/
theorem IL.Model.Assigns.exists_copies {bs : List Source.Binder}
    (hσ : Model.Assigns (sortBinders bs) ρ σ) (ρ' : M.Valuation) (n : Nat) :
    ∃ τ, Model.Assigns (sortBinders (Induction.renamed n bs)) ρ' τ ∧
      ∀ b ∈ bs, τ (Naming.renamed b.1 n) = σ b.1 := by
  obtain ⟨as, has, rfl⟩ := hσ
  have hnames : (sortBinders (Induction.renamed n bs)).map (·.1) =
      (bs.map (·.1)).map (Copies.name ⟨bs.map (·.1), n⟩) := by
    simp [Induction.renamed, Copies.name]
  have hlen : bs.length = as.length := by simpa [sortBinders] using has.length_eq
  refine ⟨_, ⟨as, ?_, rfl⟩, fun b hb => ?_⟩
  · simp only [sortBinders, Induction.renamed, List.map_map, List.forall₂_map_left_iff] at has ⊢
    exact has
  · rw [hnames, sortBinders_names]
    refine Copies.bind_name ?_
    rw [List.map_fst_zip (by simp [hlen])]
    exact List.mem_map_of_mem hb

/-- That bound variables have the values of their copies. -/
theorem holds_sameCopies {bs : List Source.Binder} :
    Holds old τ (.conj ((bs.zip (Induction.renamed n bs)).map fun (b, b') =>
      IL.Expr.eq (.var b.1) (.var b'.1))) ↔ ∀ b ∈ bs, τ b.1 = τ (Naming.renamed b.1 n) := by
  have hzip : bs.zip (Induction.renamed n bs) =
      bs.map fun b => (b, (Naming.renamed b.1 n, b.2)) := by
    rw [Induction.renamed, List.zip_map_right, ← List.map_id bs, List.zip_map']
    simp
  simp only [holds_conj, hzip, List.map_map, List.forall_mem_map, Function.comp_apply, holds_eq,
    IL.Expr.eval_var]

namespace Selection

/-- Where the check of copies holds for all bound values, a location gets one value at most. -/
theorem Of.writes_unique (hd : d.Scopes env v (Stmt.forallAssign span d lhs e).ownExprs)
    (hv : v.InBody) (hdeclared : env.context.Declared env.handles) (hp : p.Of env v d lhs e t)
    (hp' : p'.Of env v (d.copy n (Induction.toCopies span n d.binders))
      (lhs.subst (Induction.toCopies span n d.binders))
      (e.subst (Induction.toCopies span n d.binders)) t) {ts : List Trigger}
    (hchecked : ∀ σ, Model.Assigns (sortBinders d.binders) ρ σ → Holds old σ p.holds →
      Holds old σ (p.distinct p' n d.binders ts))
    (ha : p.Writes d.binders old ρ o l a) (hb : p.Writes d.binders old ρ o l b) : a = b := by
  set k : Copies := ⟨d.binders.map (·.1), n⟩ with hk
  obtain ⟨σ, hσ, hpσ⟩ := ha
  obtain ⟨σ', hσ', hpσ'⟩ := hb
  obtain ⟨τ, hτ, hcopies⟩ := hσ'.exists_copies σ n
  have hnames : (sortBinders (Induction.renamed n d.binders)).map (·.1) = k.vars.map k.name := by
    simp [hk, Induction.renamed, Copies.name]
  have hnotCopy {x : String} (hx : Nameable env v x) : ¬ k.IsCopy x := by
    rcases hx with hx | hx
    · exact (hd.apart hv n).not_isCopy hx
    · rintro ⟨y, -, rfl⟩
      exact hx.ne_renamed y n rfl
  have hkeeps {x : String} (hx : Nameable env v x) : τ x = σ x := by
    refine hτ.of_notMem fun hmem => hnotCopy hx ?_
    rw [hnames] at hmem
    obtain ⟨y, hy, rfl⟩ := List.mem_map.1 hmem
    exact ⟨y, hy, rfl⟩
  -- the variables select what they do at the first values, the copies what these do at the others
  have hpτ : p.Picks old τ o l a :=
    (hp.picks_congr hd hv hdeclared fun x hx => hkeeps hx).2 hpσ
  have hpτ' : p'.Picks old τ o l b := by
    rw [(hp.alike_copied hd hv hp').picks Copies.avoids_rename]
    refine (hp.picks_congr hd hv hdeclared fun x hx => ?_).2 hpσ'
    by_cases hmem : x ∈ k.vars
    · obtain ⟨b, hb, rfl⟩ := List.mem_map.1 hmem
      rw [Function.comp_apply, Copies.rename_of_mem hmem]
      exact hcopies b hb
    · rw [Function.comp_apply, Copies.rename_of_notMem hmem, hkeeps hx]
      rw [hσ.of_notMem (by rwa [sortBinders_names]), hσ'.of_notMem (by rwa [sortBinders_names])]
  by_cases hsame : ∀ b ∈ d.binders, τ b.1 = τ (Naming.renamed b.1 n)
  · have heq : σ = σ' := by
      funext x
      by_cases hmem : x ∈ k.vars
      · obtain ⟨b, hb, rfl⟩ := List.mem_map.1 hmem
        rw [← hkeeps (.inr (hd.plain b hb)), hsame b hb, hcopies b hb]
      · rw [hσ.of_notMem (by rwa [sortBinders_names]), hσ'.of_notMem (by rwa [sortBinders_names])]
    rw [← hpσ.value, ← hpσ'.value, heq]
  · have hdistinct := hchecked σ hσ hpσ.holds
    rw [distinct, holds_all] at hdistinct
    obtain ⟨c, hc, hholds⟩ := (holds_disj _).1 ((holds_imp _ _).1 (hdistinct τ hτ)
      ((holds_conj _).2 (List.forall_mem_cons.2 ⟨hpτ'.holds, List.forall_mem_singleton.2
        ((holds_neg _).2 fun h => hsame (holds_sameCopies.1 h))⟩)))
    simp only [List.mem_cons, List.not_mem_nil, or_false] at hc
    rcases hc with rfl | rfl | rfl
    · exact absurd (hpτ.object.trans hpτ'.object.symm) (by simpa [IL.Expr.ne] using hholds)
    · exact absurd (hpτ.field.trans hpτ'.field.symm) (by simpa [IL.Expr.ne] using hholds)
    · exact hpτ.value.symm.trans (((holds_eq _ _).1 hholds).trans hpτ'.value)

/-! ## One assignment of values -/

/-- A location, or one that bound values select. -/
def IsLocation (p : Selection) (bs : List Source.Binder) (old ρ : M.Valuation) (o l : M.Val) :
    Prop :=
  (M.carrier Prelude.refSort o ∧ M.carrier Prelude.fieldSort l) ∨ ∃ a, p.Writes bs old ρ o l a

/-- If locations get one value at most, one assignment of values is as a forall assignment says. -/
theorem exists_fits (p : Selection) (bs : List Source.Binder) (old ρ : M.Valuation)
    (before : M.Val → M.Val → M.Val)
    (hunique : ∀ {o l a b}, p.Writes bs old ρ o l a → p.Writes bs old ρ o l b → a = b) :
    ∃ V : M.Val → M.Val → M.Val, ∀ W, p.Fits bs old ρ before W ↔
      ∀ o l, p.IsLocation bs old ρ o l → W o l = V o l := by
  classical
  let V (o l : M.Val) : M.Val :=
    if h : ∃ a, p.Writes bs old ρ o l a then h.choose else before o l
  have hwritten {o l a : M.Val} (h : p.Writes bs old ρ o l a) : V o l = a := by
    have hex : ∃ a, p.Writes bs old ρ o l a := ⟨a, h⟩
    simp only [V, dif_pos hex]
    exact hunique hex.choose_spec h
  have hkept {o l : M.Val} (h : ¬ ∃ a, p.Writes bs old ρ o l a) : V o l = before o l := dif_neg h
  refine ⟨V, fun W => ⟨fun hW o l hloc => ?_, fun hW => ?_⟩⟩
  · by_cases h : ∃ a, p.Writes bs old ρ o l a
    · obtain ⟨a, ha⟩ := h
      rw [hwritten ha, hW.written o l a ha]
    · obtain ⟨ho, hl⟩ := hloc.resolve_right h
      rw [hkept h, (hW.kept o l ho hl).resolve_right h]
  · constructor
    case written =>
      intro o l a ha
      rw [hW o l (.inr ⟨a, ha⟩), hwritten ha]
    case kept =>
      intro o l ho hl
      by_cases h : ∃ a, p.Writes bs old ρ o l a
      · exact .inr h
      · exact .inl (by rw [hW o l (.inl ⟨ho, hl⟩), hkept h])

end Selection

/-! ## The facts -/

/-- A state where a local keeps the heap before. -/
def afterHavoc (ρ : M.Valuation) (n : Nat) (h : M.Val) : M.Valuation :=
  Function.update (Function.update ρ (Naming.prevHeap n) (ρ Prelude.heapName)) Prelude.heapName h

section

variable {h : M.Val} {bs : List Source.Binder} {ts : List Trigger}

@[simp] theorem afterHavoc_heap : afterHavoc ρ n h Prelude.heapName = h := Function.update_self ..

@[simp] theorem afterHavoc_prev : afterHavoc ρ n h (Naming.prevHeap n) = ρ Prelude.heapName := by
  rw [afterHavoc, Function.update_of_ne (ne_prevHeap (by decide) n).symm, Function.update_self]

theorem afterHavoc_of_not_scratch {x : String} (hx : ¬ Scratch x) : afterHavoc ρ n h x = ρ x := by
  have hheap : x ≠ Prelude.heapName := by
    rintro rfl
    exact hx .heap
  have hprev : x ≠ Naming.prevHeap n := by
    rintro rfl
    exact hx (.prev n)
  rw [afterHavoc, Function.update_of_ne hheap, Function.update_of_ne hprev]

/-- Bound variables leave heaps and locations alone. -/
theorem IL.Model.Assigns.of_scratch (hbs : ∀ b ∈ bs, Naming.Plain b.1)
    (hσ : Model.Assigns (sortBinders bs) τ σ) {x : String} (hx : Scratch x) : σ x = τ x := by
  refine hσ.of_notMem ?_
  rw [sortBinders_names]
  intro hmem
  obtain ⟨b, hb, rfl⟩ := List.mem_map.1 hmem
  exact hx.not_plain (hbs b hb)

theorem eval_read (heap obj field : IL.Expr) :
    (Prelude.read heap obj field).eval old τ =
      M.readAt (heap.eval old τ) (obj.eval old τ) (field.eval old τ) := by
  simp [Prelude.read, Model.readAt]

theorem Selection.holds_written (hbs : ∀ b ∈ bs, Naming.Plain b.1) :
    Holds old τ (p.written bs ts) ↔
      ∀ o l a, p.Writes bs old τ o l a → M.readAt (τ Prelude.heapName) o l = a := by
  simp only [written, holds_all, holds_imp, holds_eq, eval_read, Prelude.heapVar, IL.Expr.eval_var]
  constructor
  · rintro hw o l a ⟨σ, hσ, hpicks⟩
    rw [← hpicks.object, ← hpicks.field, ← hpicks.value, ← hσ.of_scratch hbs .heap]
    exact hw σ hσ hpicks.holds
  · intro hw σ hσ hholds
    rw [hσ.of_scratch hbs .heap]
    exact hw _ _ _ ⟨σ, hσ, hholds, rfl, rfl, rfl⟩

theorem Selection.holds_selected (hbs : ∀ b ∈ bs, Naming.Plain b.1) :
    Holds old τ (p.selected bs) ↔
      ∃ a, p.Writes bs old τ (τ Naming.objVar) (τ Naming.fieldVar) a := by
  simp only [selected, holds_ex, holds_conj, List.forall_mem_cons, holds_eq, Heap.obj, Heap.fld,
    IL.Expr.eval_var, List.not_mem_nil, false_implies, implies_true, and_true]
  constructor
  · rintro ⟨σ, hσ, hholds, hobject, hfield⟩
    rw [hσ.of_scratch hbs .obj] at hobject
    rw [hσ.of_scratch hbs .field] at hfield
    exact ⟨_, σ, hσ, hholds, hobject.symm, hfield.symm, rfl⟩
  · rintro ⟨a, σ, hσ, hpicks⟩
    refine ⟨σ, hσ, hpicks.holds, ?_, ?_⟩
    · rw [hpicks.object, hσ.of_scratch hbs .obj]
    · rw [hpicks.field, hσ.of_scratch hbs .field]

theorem Selection.holds_kept (hbs : ∀ b ∈ bs, Naming.Plain b.1) :
    Holds old τ (p.kept bs (.var (Naming.prevHeap n))) ↔
      ∀ o l, M.carrier Prelude.refSort o → M.carrier Prelude.fieldSort l →
        M.readAt (τ Prelude.heapName) o l = M.readAt (τ (Naming.prevHeap n)) o l ∨
        ∃ a, p.Writes bs old
          (Function.update (Function.update τ Naming.objVar o) Naming.fieldVar l) o l a := by
  have hbody (o l : M.Val) : Holds old
      (Function.update (Function.update τ Naming.objVar o) Naming.fieldVar l)
      (.disj [.eq (Prelude.read Prelude.heapVar Heap.obj Heap.fld)
        (Prelude.read (.var (Naming.prevHeap n)) Heap.obj Heap.fld), p.selected bs]) ↔
      M.readAt (τ Prelude.heapName) o l = M.readAt (τ (Naming.prevHeap n)) o l ∨
        ∃ a, p.Writes bs old
          (Function.update (Function.update τ Naming.objVar o) Naming.fieldVar l) o l a := by
    have hfield : Naming.objVar ≠ Naming.fieldVar := by decide
    have hheap : Prelude.heapName ≠ Naming.objVar ∧ Prelude.heapName ≠ Naming.fieldVar := by decide
    have hprev : Naming.prevHeap n ≠ Naming.objVar ∧ Naming.prevHeap n ≠ Naming.fieldVar :=
      ⟨(ne_prevHeap (by decide) n).symm, (ne_prevHeap (by decide) n).symm⟩
    simp [holds_selected hbs, eval_readLocation, Prelude.heapVar, hfield, hheap, hprev]
  simp only [kept, holds_all, Heap.locationBinders, Model.assigns_cons, Model.assigns_nil]
  constructor
  · intro hk o l ho hl
    exact (hbody o l).1 (hk _ ⟨o, ho, l, hl, rfl⟩)
  · rintro hk _ ⟨o, ho, l, hl, rfl⟩
    exact (hbody o l).2 (hk o l ho hl)

/-- The two facts about the heap after a forall assignment say that its values are as they should be
where expressions look at the heap before. -/
theorem Selection.Of.holds_effect (hd : d.Scopes env v (Stmt.forallAssign span d lhs e).ownExprs)
    (hv : v.InBody) (hdeclared : env.context.Declared env.handles) (hp : p.Of env v d lhs e t)
    (hp' : p'.Of env { v with heap := .var (Naming.prevHeap n) } d lhs e t) :
    (Holds old (afterHavoc ρ n h) (p'.written d.binders ts) ∧
      Holds old (afterHavoc ρ n h) (p'.kept d.binders (.var (Naming.prevHeap n)))) ↔
      p.Fits d.binders old ρ (M.readAt (ρ Prelude.heapName)) (M.readAt h) := by
  have hhere {o l a : M.Val} : p'.Writes d.binders old (afterHavoc ρ n h) o l a ↔
      p.Writes d.binders old ρ o l a :=
    hp.writes_kept hd hv hdeclared hp' afterHavoc_prev fun x hx => afterHavoc_of_not_scratch hx
  have hat (o l : M.Val) {a : M.Val} : p'.Writes d.binders old (Function.update
      (Function.update (afterHavoc ρ n h) Naming.objVar o) Naming.fieldVar l) o l a ↔
      p.Writes d.binders old ρ o l a := by
    refine hp.writes_kept hd hv hdeclared hp' ?_ fun x hx => ?_
    · rw [Function.update_of_ne (ne_prevHeap (by decide) n).symm,
        Function.update_of_ne (ne_prevHeap (by decide) n).symm, afterHavoc_prev]
    · have hfield : x ≠ Naming.fieldVar := by
        rintro rfl
        exact hx .field
      have hobj : x ≠ Naming.objVar := by
        rintro rfl
        exact hx .obj
      rw [Function.update_of_ne hfield, Function.update_of_ne hobj, afterHavoc_of_not_scratch hx]
  rw [holds_written hd.plain, holds_kept hd.plain]
  simp only [hhere, hat, afterHavoc_heap, afterHavoc_prev]
  exact ⟨fun ⟨hw, hk⟩ => ⟨hw, hk⟩, fun hfits => ⟨hfits.written, hfits.kept⟩⟩

end

end

/-! ## Forall assignments -/

namespace ForallAssignCode

variable {c : Context} {s s' : Progress} {v : View} {span : Span} {d : Domain} {lhs : Lhs}
  {e : Source.Expr} {code : List IL.Stmt} {M : Model} {procs : List Procedure}
  {old ρ σ : M.Valuation} {tr : Trace M} (r : ForallAssignCode c s v span d lhs e code)

/-- The check compares locations, and holds for all bound values that are in range. -/
def Checked (old ρ : M.Valuation) : Prop :=
  ∀ σ, Model.Assigns (sortBinders d.binders) ρ σ → Holds old σ r.here.holds →
    Holds old σ (r.here.distinct r.copied r.number d.binders r.distinctTriggers)

/-- The facts that are assumed of the heap after. -/
def Facts (old σ : M.Valuation) : Prop :=
  Holds old σ (r.before.written d.binders r.writtenTriggers) ∧
    Holds old σ (r.before.kept d.binders (.var (Naming.prevHeap r.saved)))

/-- Values of locations are as the facts say, where expressions are evaluated in the heap before. -/
def Fits (old ρ : M.Valuation) (W : M.Val → M.Val → M.Val) : Prop :=
  r.here.Fits d.binders old ρ (M.readAt (ρ Prelude.heapName)) W

/-- The facts hold of one assignment of values to locations, which gives selected locations the
values that the right-hand side has before, and every execution ends with these values. -/
structure OneEffect (procs : List Procedure) (old ρ : M.Valuation) (V : M.Val → M.Val → M.Val) :
    Prop where
  /-- What the facts say of a heap depends on the values that it gives to locations. -/
  facts : ∀ h, r.Facts old (afterHavoc ρ r.saved h) ↔ r.Fits old ρ (M.readAt h)
  unique : ∀ W, r.Fits old ρ W ↔ ∀ o l, r.here.IsLocation d.binders old ρ o l → W o l = V o l
  selected : ∀ σ, Model.Assigns (sortBinders d.binders) ρ σ → Holds old σ r.here.holds →
    V (r.here.object.eval old σ) (r.here.field.eval old σ) = r.here.value.eval old σ
  reached : ∀ tr σ, Exec procs old code ρ tr (.done σ) → tr.Proper →
    ∀ o l, r.here.IsLocation d.binders old ρ o l → M.readAt (σ Prelude.heapName) o l = V o l

/-- An execution to the end changes the heap as the facts say. -/
theorem facts_of_exec (hexec : Exec procs old code ρ tr (.done σ)) (hproper : tr.Proper) :
    ∃ h, σ = afterHavoc ρ r.saved h ∧ r.Facts old σ := by
  rw [r.code_eq] at hexec
  rcases hexec.of_ifElse with hcheck | heffect
  · -- checks are followed by no other statements
    rw [assumeGuard, Option.toList_none, List.map_nil, List.nil_append] at hcheck
    obtain ⟨ρ', tr₁, tr₂, -, hend, rfl⟩ := hcheck.split
    obtain ⟨tr₃, hnever, rfl⟩ := hend.of_assert
    obtain ⟨tr₄, -, rfl⟩ := hnever.of_assume
    exact absurd (hproper old ρ' .ff (by simp)) holds_ff
  · obtain ⟨tr₁, hexec₁, rfl⟩ := heffect.of_assign
    obtain ⟨h, tr₂, hexec₂, rfl⟩ := hexec₁.of_havoc
    obtain ⟨tr₃, hexec₃, rfl⟩ := hexec₂.of_assume
    obtain ⟨tr₄, hexec₄, rfl⟩ := hexec₃.of_assume
    obtain ⟨tr₅, hdone, rfl⟩ := hexec₄.of_assume
    obtain ⟨rfl, rfl⟩ := hdone.of_nil
    exact ⟨h, rfl, hproper _ _ _ (by simp), hproper _ _ _ (by simp)⟩

theorem exists_oneEffect (hd : d.Scopes (s.env c) v (Stmt.forallAssign span d lhs e).ownExprs)
    (hv : v.InBody) (hdeclared : c.Declared s.handles) (hchecked : r.Checked old ρ) :
    ∃ V, r.OneEffect procs old ρ V := by
  obtain ⟨V, hV⟩ := Selection.exists_fits r.here d.binders old ρ (M.readAt (ρ Prelude.heapName))
    fun ha hb => r.ofHere.writes_unique hd hv hdeclared r.ofCopied hchecked ha hb
  have hfacts (h : M.Val) : r.Facts old (afterHavoc ρ r.saved h) ↔ r.Fits old ρ (M.readAt h) :=
    r.ofHere.holds_effect hd hv hdeclared r.ofBefore
  refine ⟨V, ?_⟩
  constructor
  case facts => exact hfacts
  case unique => exact hV
  case selected =>
    intro σ hσ hholds
    exact ((hV V).2 fun _ _ _ => rfl).written _ _ _ ⟨σ, hσ, hholds, rfl, rfl, rfl⟩
  case reached =>
    intro tr σ hexec hproper
    obtain ⟨h, rfl, hfact⟩ := r.facts_of_exec hexec hproper
    rw [afterHavoc_heap]
    exact (hV _).1 ((hfacts h).1 hfact)

end ForallAssignCode

/-- A forall assignment has exactly one effect where its check holds: the facts that are assumed of
the heap after hold of one assignment of values to locations, in which selected locations have the
values that the right-hand side has in the heap before. -/
theorem forallAssign_effect {c : Context} {s s' : Progress} {v : View} {span : Span} {d : Domain}
    {lhs : Lhs} {e : Source.Expr} {code : List IL.Stmt} {b : Body} (hv : v.InBody)
    (hd : d.Scopes (s.env c) v (Stmt.forallAssign span d lhs e).ownExprs)
    (h : (b.lowerStmt v (.forallAssign span d lhs e)).Emits c s () code s')
    (hdeclared : c.Declared s'.handles) :
    ∃ r : ForallAssignCode c s v span d lhs e code, ∀ {M : Model} (procs : List Procedure)
      (old ρ : M.Valuation), r.Checked old ρ → ∃ V, r.OneEffect procs old ρ V := by
  have hbefore : c.Declared s.handles := by
    refine Progress.Extends.declared ?_ hdeclared
    unfold Body.lowerStmt forallChoice at h
    exact BodyM.Quiet.extends_of_emits inferInstance h
  obtain ⟨r⟩ := exists_forallAssignCode h hdeclared
  exact ⟨r, fun procs old ρ => r.exists_oneEffect hd hv hbefore⟩

/-- Whether handles are the one of a field of integers or objects. -/
def FieldHandle.only (f : Field) : List FieldHandle → Bool
  | [h] => h.id == f.id && h.name == Naming.field f.id && h.isMutable == f.isMutable &&
    match h.typ, f.typ with
    | .int, .int | .object, .object => true
    | _, _ => false
  | _ => false

theorem FieldHandle.eq_of_only {f : Field} {hs : List FieldHandle} (h : only f hs = true) :
    hs = [.ofField f] := by
  unfold only at h
  split at h
  · rename_i k
    obtain ⟨id, name, isMutable, typ⟩ := k
    simp only [Bool.and_eq_true, beq_iff_eq] at h
    obtain ⟨⟨⟨rfl, rfl⟩, rfl⟩, htyp⟩ := h
    have htyps : typ = f.typ := by
      split at htyp <;> simp_all
    rw [FieldHandle.ofField, htyps]
  · cases h

namespace Increment

/-- An object whose field is incremented. -/
def obj : Source.Expr := .mkVar default "o" (.cls ⟨"M", ["C"]⟩ [])

def domain : Domain := ⟨[("o", .cls ⟨"M", ["C"]⟩ [])], none⟩

def target : Lhs := .field default obj Swap.field.id

def value : Source.Expr :=
  .binary ⟨default, .int⟩ .add (.field ⟨default, .int⟩ obj Swap.field.id) (.mkInt default 1)

/-- All objects have a field incremented. -/
def stmt : Source.Stmt := .forallAssign default domain target value

def lowered : Except Fault (Unit × List IL.Stmt) × Progress :=
  ((default : Body).lowerStmt Swap.view stmt).run Swap.context {}

theorem lowered_eq : lowered.1.toOption.isSome = true ∧ lowered.2.handles = [.ofField Swap.field] :=
  have h : lowered.1.toOption.isSome = true ∧ FieldHandle.only Swap.field lowered.2.handles = true :=
    by decide +kernel
  ⟨h.1, FieldHandle.eq_of_only h.2⟩

theorem lowers : ∃ code, ((default : Body).lowerStmt Swap.view stmt).Emits Swap.context {} () code
    lowered.2 := by
  cases hout : lowered.1 with
  | error e => simpa [hout, Except.toOption] using lowered_eq.1
  | ok p =>
    have hrun : lowered = (.ok p, lowered.2) := by rw [← hout]
    exact ⟨p.2, hrun⟩

theorem declared : Swap.context.Declared lowered.2.handles := by
  intro h hh
  rw [lowered_eq.2] at hh
  exact ⟨Swap.field, rfl, List.mem_singleton.1 hh⟩

theorem not_reserved {x : String} (h : Reserved (Progress.env {} Swap.context) Swap.view x) :
    x.toList.head? ≠ some 'o' := by
  cases h with
  | const h =>
    simp only [preludeConstants, List.mem_cons, List.not_mem_nil, or_false] at h
    rcases h with rfl | rfl | rfl | rfl | rfl | rfl <;> decide
  | cls p => simp [Naming.cls]
  | field hf =>
    obtain rfl := Swap.field_eq hf
    decide
  | this => decide
  | heap h =>
    obtain rfl : x = "$Heap" := by
      simpa [Swap.view, Prelude.heapVar, Prelude.heapName, Expr.names] using h
    decide
  | oldHeap h => simp [Swap.view, Expr.names] at h
  | generated h =>
    cases h with
    | box => decide
    | boxAt d => simp [WhereClause.boxVar, Naming.boxVar]
    | indexAt d => simp [WhereClause.indexVar, Naming.indexVar]

theorem eq_of_mem_ownExprs {e : Source.Expr} (he : e ∈ stmt.ownExprs) : e = obj ∨ e = value := by
  simpa [stmt, Stmt.ownExprs, Lhs.exprs, domain, target] using he

theorem scopes : domain.Scopes (Progress.env {} Swap.context) Swap.view stmt.ownExprs where
  plain b hb := by
    obtain rfl := List.mem_singleton.1 hb
    simp [Naming.Plain]
  binder b hb h := by
    obtain rfl := List.mem_singleton.1 hb
    exact not_reserved h rfl
  copy b hb n h := by
    obtain rfl := List.mem_singleton.1 hb
    exact not_reserved h (by simp [Naming.renamed])
  typed e he := by
    have hvar : ∀ t ∈ Typing.bind domain.binders (fun _ => none) "o", obj.info.typ = t := by
      rintro t ⟨⟩
      rfl
    obtain rfl | rfl := eq_of_mem_ownExprs he
    · exact hvar
    · exact ⟨hvar, trivial⟩
  free e he x hx := by
    obtain rfl : x = "o" := by
      obtain rfl | rfl := eq_of_mem_ownExprs he
      · simpa [obj, Source.Expr.mkVar, Source.Expr.freeVars] using hx
      · simpa [value, obj, Source.Expr.mkVar, Source.Expr.mkInt, Source.Expr.freeVars] using hx
    simp [Naming.Plain]

theorem inBody : Swap.view.InBody := ⟨rfl, rfl, by simp [Swap.view, Naming.this, Naming.Plain]⟩

theorem object_eq {v : View} {x : String} {o f : IL.Expr} {t : Typ} {i : Info}
    (h : LocationOf (Progress.env {} Swap.context) v (.field default (.var i x) Swap.field.id)
      o f t) : o = .var x := by
  cases h with
  | field _ ho => exact ExprM.returns_pure.1 ho

/-- Locations in different objects are different. -/
theorem checked {code : List IL.Stmt} (r : ForallAssignCode Swap.context {} Swap.view default domain
    target value code) {M : Model} (old ρ : M.Valuation) : r.Checked old ρ := by
  have hhere : r.here.object = .var "o" := object_eq r.location
  have hcopied : r.copied.object = .var (Naming.renamed "o" r.number) := by
    obtain ⟨t, hloc⟩ := r.ofCopied.location
    exact object_eq hloc
  intro σ _ _
  rw [Selection.distinct, holds_all]
  intro τ _
  rw [holds_imp, hhere, hcopied]
  intro h
  have hne : ¬ Holds old τ (.conj [.eq (.var "o") (.var (Naming.renamed "o" r.number))]) :=
    (holds_neg _).1 ((holds_conj _).1 h _ (by simp [domain, Induction.renamed]))
  exact (holds_disj _).2 ⟨_, .head _, (holds_neg _).2 fun heq => hne (by simpa using heq)⟩

end Increment

/-- All objects have a field incremented. -/
theorem forallAssign_effect_increment : ∃ code,
    Swap.view.InBody ∧
    Increment.domain.Scopes (Progress.env {} Swap.context) Swap.view Increment.stmt.ownExprs ∧
    ((default : Body).lowerStmt Swap.view Increment.stmt).Emits Swap.context {} () code
      Increment.lowered.2 ∧
    Swap.context.Declared Increment.lowered.2.handles ∧
    ∃ r : ForallAssignCode Swap.context {} Swap.view default Increment.domain Increment.target
      Increment.value code, ∀ {M : Model} (procs : List Procedure) (old ρ : M.Valuation),
        ∃ V, r.OneEffect procs old ρ V := by
  obtain ⟨code, hlowers⟩ := Increment.lowers
  obtain ⟨r, heffect⟩ := forallAssign_effect Increment.inBody Increment.scopes hlowers
    Increment.declared
  exact ⟨code, Increment.inBody, Increment.scopes, hlowers, Increment.declared, r,
    fun procs old ρ => heffect procs old ρ (Increment.checked r old ρ)⟩

namespace Captured

def field : Source.Field := ⟨⟨⟨"M", ["C"]⟩, "f"⟩, default, .object, true⟩

def context : Context := { fields := [field] }

/-- A variable that is called like the constant. -/
def bound : Source.Expr := .mkVar default "null" .object

def domain : Domain := ⟨[("null", .object)], some (.mkRel default .ne bound Swap.this)⟩

def target : Lhs := .field default Swap.this field.id

/-- A field of the receiver is to be every other object. -/
def stmt : Source.Stmt := .forallAssign default domain target bound

def lowered : Except Fault (Unit × List IL.Stmt) × Progress :=
  ((default : Body).lowerStmt Swap.view stmt).run context {}

/-- What the first branch of a choice asserts, but for the last assertion. -/
def asserted : List IL.Stmt → List IL.Expr
  | [.ifElse _ checks _] => (Stmt.asserted checks).dropLast
  | _ => []

/-- Whether only `true` is asserted. -/
def isTrivial : List IL.Expr → Bool
  | [.bool b] => b
  | _ => false

theorem eq_of_isTrivial {es : List IL.Expr} (h : isTrivial es = true) : es = [.tt] := by
  unfold isTrivial at h
  split at h
  · rw [h, IL.Expr.tt]
  · cases h

theorem lowered_eq : lowered.1.toOption.map (asserted ·.2) = some [.tt] ∧
    lowered.2.handles = [.ofField field] := by
  have h : lowered.1.toOption.any (isTrivial <| asserted ·.2) = true ∧
      FieldHandle.only field lowered.2.handles = true := by decide +kernel
  obtain ⟨p, hp, hasserted⟩ := (Option.any_eq_true _ _).1 h.1
  rw [hp, Option.map_some, eq_of_isTrivial hasserted]
  exact ⟨rfl, FieldHandle.eq_of_only h.2⟩

theorem lowers : ∃ code, ((default : Body).lowerStmt Swap.view stmt).Emits context {} () code
    lowered.2 ∧ asserted code = [.tt] := by
  have hasserted := lowered_eq.1
  cases hout : lowered.1 with
  | error e => simp [hout, Except.toOption] at hasserted
  | ok p =>
    have hrun : lowered = (.ok p, lowered.2) := by rw [← hout]
    exact ⟨p.2, hrun, by simpa [hout, Except.toOption] using hasserted⟩

theorem declared : context.Declared lowered.2.handles := by
  intro h hh
  rw [lowered_eq.2] at hh
  exact ⟨field, rfl, List.mem_singleton.1 hh⟩

/-- What says that a variable is in range. -/
def inRange (heap : IL.Expr) (x : String) : IL.Expr :=
  .conj [.disj [.eq (.var x) Prelude.null, Heap.isAlloc heap (.var x)], .ne (.var x) (.var "this")]

theorem returns_inRange (heap : IL.Expr) :
    (domainHolds { Swap.view with heap := heap } domain).Returns (Progress.env {} context)
      (inRange heap "null") := rfl

theorem returns_inRange_copy (n : Nat) :
    (domainHolds Swap.view (domain.copy n (Induction.toCopies default n domain.binders))).Returns
      (Progress.env {} context) (inRange Prelude.heapVar (Naming.renamed "null" n)) := rfl

theorem returns_value (heap : IL.Expr) :
    (boxedValue { Swap.view with heap := heap } .object bound).Returns (Progress.env {} context)
      (.app Prelude.BoxSort.ref.boxName [.var "null"]) := rfl

section

variable {M : Model} {old ρ τ : M.Valuation} {code : List IL.Stmt}

/-- An object is allocated in the heap of a state. -/
def Allocated (ρ : M.Valuation) (heap o : M.Val) : Prop :=
  M.truth (M.app "$Unbox.bool" [M.readAt heap o (ρ "alloc")])

theorem holds_inRange {heap : IL.Expr} {x : String} : Holds old τ (inRange heap x) ↔
    (τ x = τ "null" ∨ Allocated τ (heap.eval old τ) (τ x)) ∧ τ x ≠ τ "this" := by
  have halloc : Holds old τ (Heap.isAlloc heap (.var x)) ↔
      Allocated τ (heap.eval old τ) (τ x) := by
    rw [Heap.isAlloc, Boxing.unboxBool, holds_app, Allocated]
    simp [eval_read, Prelude.alloc, Prelude.BoxSort.unboxName, Prelude.BoxSort.suffix]
  simp [inRange, halloc, Prelude.null, IL.Expr.ne]

/-- The check takes the constant for the variable: the only copy in range is the variable itself. -/
theorem checked (r : ForallAssignCode context {} Swap.view default domain target bound code)
    (honly : ∀ o, M.carrier Prelude.refSort o → Allocated ρ (ρ Prelude.heapName) o → o = ρ "this") :
    r.Checked old ρ := by
  have hcopied := r.ofCopied.holds.unique (returns_inRange_copy r.number)
  intro σ hσ _
  rw [Selection.distinct, holds_all]
  intro τ hτ
  have hkept {x : String} (hnull : x ≠ "null") (hpercent : '%' ∉ x.toList) : τ x = ρ x := by
    have hcopy : x ∉ (sortBinders (Induction.renamed r.number domain.binders)).map (·.1) := by
      intro hx
      obtain rfl : x = Naming.renamed "null" r.number := List.mem_singleton.1 hx
      exact hpercent (by simp [Naming.renamed])
    rw [hτ.of_notMem hcopy, hσ.of_notMem fun hx => hnull (List.mem_singleton.1 hx)]
  have hheap : τ Prelude.heapName = ρ Prelude.heapName := hkept (by decide) (by decide)
  have halloc : τ "alloc" = ρ "alloc" := hkept (by decide) (by decide)
  have hthis : τ "this" = ρ "this" := hkept (by decide) (by decide)
  rw [holds_imp, hcopied]
  intro h
  obtain ⟨hrange, hdiffers⟩ := List.forall_mem_cons.1 ((holds_conj _).1 h)
  obtain ⟨hnull | hallocated, hother⟩ := holds_inRange.1 hrange
  · refine absurd ?_ ((holds_neg _).1 (List.forall_mem_singleton.1 hdiffers))
    simpa [domain, Induction.renamed] using hnull.symm
  · rw [Allocated, Prelude.heapVar, IL.Expr.eval_var, hheap, halloc] at hallocated
    have hcarrier : M.carrier Prelude.refSort (τ (Naming.renamed "null" r.number)) :=
      hτ.carrier (List.nodup_singleton _) (List.mem_singleton_self _)
    exact absurd (honly _ hcarrier hallocated) (hthis ▸ hother)

theorem location_eq {heap o f : IL.Expr} {t : Typ}
    (h : LocationOf (Progress.env {} context) { Swap.view with heap := heap } target o f t) :
    o = .var "this" ∧ f = .var "M.C.f" ∧ t = .object := by
  cases h with
  | field hf ho =>
    have hfield : context.field field.id = .ok field := rfl
    obtain rfl := Except.ok.inj (hfield.symm.trans hf)
    exact ⟨ExprM.returns_pure.1 ho, by cbv, rfl⟩

theorem not_facts (r : ForallAssignCode context {} Swap.view default domain target bound code)
    {a b h : M.Val} (ha : M.carrier Prelude.refSort a) (hb : M.carrier Prelude.refSort b)
    (ha' : a ≠ ρ "this") (hb' : b ≠ ρ "this")
    (hne : M.app Prelude.BoxSort.ref.boxName [a] ≠ M.app Prelude.BoxSort.ref.boxName [b]) :
    ¬ r.Facts old (afterHavoc ρ r.saved h) := by
  obtain ⟨-, -, htyp⟩ := location_eq r.location
  obtain ⟨t, hlocation⟩ := r.ofBefore.location
  obtain ⟨hobject, hfield, -⟩ := location_eq hlocation
  have hholds := r.ofBefore.holds.unique (returns_inRange _)
  have hvalue := r.ofBefore.value.unique (htyp ▸ returns_value _)
  have hthis : ¬ Scratch "this" := fun h => h.not_plain (by simp [Naming.Plain])
  have hname : ¬ Scratch "M.C.f" := fun h => h.not_plain (by simp [Naming.Plain])
  -- every object but the receiver is in range, and the field is to be it
  have hwrites {c : M.Val} (hc : M.carrier Prelude.refSort c) (hne : c ≠ ρ "this") :
      r.before.Writes domain.binders old (afterHavoc ρ r.saved h) (ρ "this") (ρ "M.C.f")
        (M.app Prelude.BoxSort.ref.boxName [c]) := by
    refine ⟨Function.update (afterHavoc ρ r.saved h) "null" c,
      Model.assigns_cons.2 ⟨c, hc, Model.assigns_nil.2 rfl⟩, ?_⟩
    constructor
    case holds =>
      rw [hholds, holds_inRange]
      refine ⟨.inl rfl, ?_⟩
      rwa [Function.update_self, Function.update_of_ne (by decide), afterHavoc_of_not_scratch hthis]
    case object =>
      rw [hobject, IL.Expr.eval_var, Function.update_of_ne (by decide),
        afterHavoc_of_not_scratch hthis]
    case field =>
      rw [hfield, IL.Expr.eval_var, Function.update_of_ne (by decide),
        afterHavoc_of_not_scratch hname]
    case value => simp [hvalue]
  rintro ⟨hwritten, -⟩
  rw [Selection.holds_written (fun b hb => by
    obtain rfl := List.mem_singleton.1 hb
    simp [Naming.Plain])] at hwritten
  exact hne ((hwritten _ _ _ (hwrites ha ha')).symm.trans (hwritten _ _ _ (hwrites hb hb')))

end

open Standard

/-- The receiver. -/
def receiver : Ref := .object "class%M.C" 0 0

open Classical in
/-- A heap where the receiver is the only object. -/
noncomputable def heap : Standard.Store :=
  ⟨fun r f => Val.toCode (if f = .alloc then .ofProp (r = receiver) else .ref .null), True⟩

noncomputable def state : String → Val :=
  Function.update (Allocating.state heap) "this" (.ref receiver)

theorem preludeState :
    Model.PreludeState (M := Standard.model Interval.nothing) (.ref .null) state state :=
  { satisfiesPrelude Interval.nothing ⟨rfl, rfl, rfl, rfl, rfl⟩ with null := rfl }

theorem eq_receiver {o : Val} (ho : o.sort = Prelude.refSort)
    (h : Allocated (M := Standard.model Interval.nothing) state (state Prelude.heapName) o) :
    o = .ref receiver := by
  obtain ⟨r, rfl⟩ := Val.sort_eq_ref.1 ho
  have hread : Model.readAt (M := Standard.model Interval.nothing) (state Prelude.heapName) (.ref r)
      (state "alloc") = .box (Val.toCode (.ofProp (r = receiver))) :=
    (app_op .read [.heap heap, .ref r, .field .alloc]).trans
      (congrArg Val.box (by simp [heap, Val.toStore, Val.toRef, Val.toFld]))
  unfold Allocated at h
  rw [hread] at h
  have hunbox : Val.unbox .bool (Val.toCode (.ofProp (r = receiver))) = .bool true :=
    (app_op (.unbox .bool) [.box _]).symm.trans h
  rw [Val.unbox_toCode rfl, Val.ofProp_eq_true] at hunbox
  rw [hunbox]

theorem box_ne {r r' : Ref} (h : r ≠ r') :
    (Standard.model Interval.nothing).app Prelude.BoxSort.ref.boxName [Val.ref r] ≠
      (Standard.model Interval.nothing).app Prelude.BoxSort.ref.boxName [Val.ref r'] := by
  have hbox (r : Ref) : (Standard.model Interval.nothing).app Prelude.BoxSort.ref.boxName
      [Val.ref r] = .box (Val.toCode (.ref r)) := app_op (.box .ref) [.ref r]
  rw [hbox, hbox]
  intro heq
  have hsame := congrArg (Val.unbox .ref) (Val.box.inj heq)
  rw [Val.unbox_toCode rfl, Val.unbox_toCode rfl] at hsame
  exact h (Val.ref.inj hsame)

end Captured

/-- A variable hides the constant: the check finds no second value in range, and the fact says that
the field is every object but the receiver. -/
theorem forallAssign_no_effect : ∃ code s',
    Swap.view.InBody ∧
    ((default : Body).lowerStmt Swap.view Captured.stmt).Emits Captured.context {} () code s' ∧
    Captured.context.Declared s'.handles ∧
    ∃ r : ForallAssignCode Captured.context {} Swap.view default Captured.domain Captured.target
      Captured.bound code, (∀ e ∈ Stmt.asserted r.checks, e = .tt) ∧
      ∃ (M : Model) (nil : M.Val) (ρ : M.Valuation), Model.PreludeState nil ρ ρ ∧ r.Checked ρ ρ ∧
        ∀ h, ¬ r.Facts ρ (afterHavoc ρ r.saved h) := by
  obtain ⟨code, hlowers, hasserted⟩ := Captured.lowers
  obtain ⟨r⟩ := exists_forallAssignCode hlowers Captured.declared
  refine ⟨code, _, Increment.inBody, hlowers, Captured.declared, r, ?_,
    Standard.model Interval.nothing, .ref .null, Captured.state, Captured.preludeState, ?_,
    fun h => ?_⟩
  · rw [r.code_eq] at hasserted
    have hchecks : Stmt.asserted r.checks = [.tt] := by
      simpa [Captured.asserted, Stmt.asserted] using hasserted
    simp [hchecks]
  · exact Captured.checked r fun o ho halloc => Captured.eq_receiver ho halloc
  · have hnull : Standard.Val.ref .null ≠ Captured.state "this" := by
      simp [Captured.state, Captured.receiver]
    have hother : Standard.Val.ref (.object "" 0 0) ≠ Captured.state "this" := by
      simp [Captured.state, Captured.receiver]
    have href (o : Standard.Ref) :
        (Standard.model Interval.nothing).carrier Prelude.refSort (Standard.Val.ref o) := rfl
    exact Captured.not_facts r (href .null) (href (.object "" 0 0)) hnull hother
      (Captured.box_ne (by simp))

end ContractLowering
