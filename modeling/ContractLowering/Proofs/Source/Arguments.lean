import ContractLowering.Proofs.Source.CallsAfterSubst
import ContractLowering.Proofs.Source.Generic

/-!
# Arguments in generic code

Where arguments replace the formals of a generic declaration, its code has the types that it has in
the instance (`HasType.subst`), although the annotations of arguments are those of the caller. A
substitution `Fills` the variables of an expression if it brings in expressions that have the types
of these variables.
-/

namespace ContractLowering.Source

/-! ## Binders -/

/-- The type of a bound variable is that of its last binder. -/
theorem Typing.bind_lastIndex (Γ : Typing) (bs : List Binder) (x : String) :
    Γ.bind bs x = match lastIndex (bs.map (·.1)) x with
      | some n => (bs.map (·.2))[n]?
      | none => Γ x := by
  induction bs generalizing Γ with
  | nil => rfl
  | cons b bs ih =>
    rw [Typing.bind_cons, ih, List.map_cons, List.map_cons, lastIndex]
    cases hn : lastIndex (bs.map (·.1)) x with
    | some n => simp
    | none =>
      by_cases hx : b.1 = x
      · simp [hx]
      · simp [hx, Function.update_of_ne (Ne.symm hx)]

theorem exists_freshName (avoid : List String) (x : String) :
    ∃ n, freshName avoid x = Naming.renamed x n := by
  rw [freshName]
  cases hfind : ((List.range (avoid.length + 1)).map fun n => Naming.renamed x (n + 1)).find?
      fun y => !avoid.contains y with
  | none => exact ⟨1, rfl⟩
  | some y =>
    obtain ⟨n, -, rfl⟩ := List.mem_map.1 (List.mem_of_find?_eq_some hfind)
    exact ⟨n + 1, rfl⟩

namespace Subst

variable {s : Subst} {bs : List Binder} {first : Expr} {others : List Expr}

/-- Binders that are distinct are so under their new names. -/
theorem nodup_renameClashes {clash avoid : List String} {span : Span}
    (hclash : ∀ z ∈ clash, z ∈ avoid) (hbs : ∀ b ∈ bs, b.1 ∈ avoid)
    (hnodup : (bs.map (·.1)).Nodup) : (renameClashes clash span avoid bs).1.Nodup := by
  induction bs generalizing avoid with
  | nil => exact List.nodup_nil
  | cons b bs ih =>
    obtain ⟨hb, hnodup⟩ := List.nodup_cons.1 hnodup
    have hrest : ∀ d ∈ bs, d.1 ∈ avoid := fun d hd => hbs d (List.mem_cons_of_mem _ hd)
    by_cases hmem : b.1 ∈ clash
    · have hfresh := freshName_notMem avoid b.1
      have hrenamed := renamed_renameClashes span
        (fun z hz => List.mem_cons_of_mem (freshName avoid b.1) (hclash z hz))
        fun d hd => List.mem_cons_of_mem _ (hrest d hd)
      have hnames := ih (fun z hz => List.mem_cons_of_mem (freshName avoid b.1) (hclash z hz))
        (fun d hd => List.mem_cons_of_mem _ (hrest d hd)) hnodup
      simp only [renameClashes, List.contains_eq_mem, hmem, decide_true, if_true,
        List.nodup_cons]
      refine ⟨fun hname => ?_, hnames⟩
      rcases hrenamed.fresh _ hname with hbound | havoid
      · obtain ⟨d, hd, hdname⟩ := List.mem_map.1 hbound
        exact hfresh (hdname ▸ hrest d hd)
      · exact havoid List.mem_cons_self
    · have hrenamed := renamed_renameClashes span hclash hrest
      simp only [renameClashes, List.contains_eq_mem, hmem, decide_false, Bool.false_eq_true,
        if_false, List.nodup_cons]
      refine ⟨fun hname => ?_, ih hclash hrest hnodup⟩
      rcases hrenamed.fresh _ hname with hbound | havoid
      · exact hb hbound
      · exact havoid (hbs b List.mem_cons_self)

theorem nodup_enter (hnodup : (bs.map (·.1)).Nodup) : (s.enter bs first others).2.Nodup := by
  rw [enter]
  dsimp only
  split
  · exact hnodup
  · refine nodup_renameClashes (fun z hz => ?_) (fun b hb => ?_) hnodup
    · exact List.mem_append_left _ (List.mem_append_left _ hz)
    · exact List.mem_append_right _ (List.mem_map_of_mem hb)

/-- New names of binders are old ones with numbers. -/
theorem forall_names_enter {P : String → Prop} (hP : ∀ x n, P x → P (Naming.renamed x n))
    (hbs : ∀ b ∈ bs, P b.1) (first : Expr) (others : List Expr) :
    ∀ y ∈ (s.enter bs first others).2, P y := by
  have hrename : ∀ clash span avoid, ∀ y ∈ (renameClashes clash span avoid bs).1, P y := by
    intro clash span
    induction bs with
    | nil => simp [renameClashes]
    | cons b bs ih =>
      intro avoid y hy
      obtain ⟨hb, hbs⟩ := List.forall_mem_cons.1 hbs
      rw [renameClashes] at hy
      split at hy
      · rcases List.mem_cons.1 hy with rfl | hy
        · obtain ⟨n, hn⟩ := exists_freshName avoid b.1
          exact hn ▸ hP _ n hb
        · exact ih hbs _ y hy
      · rcases List.mem_cons.1 hy with rfl | hy
        · exact hb
        · exact ih hbs _ y hy
  rw [enter]
  dsimp only
  split
  · simpa using hbs
  · exact hrename _ _ _

theorem exists_binder_of_rename {clash avoid : List String} {span : Span} {p : String × Expr}
    (hp : p ∈ (renameClashes clash span avoid bs).2) :
    ∃ y t, (p.1, t) ∈ bs ∧ p.2 = .mkVar span y t := by
  induction bs generalizing avoid with
  | nil => simp [renameClashes] at hp
  | cons b bs ih =>
    rw [renameClashes] at hp
    split at hp
    · rcases List.mem_cons.1 hp with rfl | hp
      · exact ⟨_, b.2, List.mem_cons_self, rfl⟩
      · obtain ⟨y, t, ht, he⟩ := ih hp
        exact ⟨y, t, List.mem_cons_of_mem _ ht, he⟩
    · obtain ⟨y, t, ht, he⟩ := ih hp
      exact ⟨y, t, List.mem_cons_of_mem _ ht, he⟩

/-- What stands for a renamed binder is annotated with its type. -/
theorem exists_binder_of_enter {x : String} {r : Expr} (hx : x ∈ bs.map (·.1))
    (hr : (s.enter bs first others).1.map.lookup x = some r) :
    ∃ span y t, (x, t) ∈ bs ∧ r = .mkVar span y t := by
  have hrestrict : (s.restrict (bs.map (·.1)) (first :: others)).map.lookup x = none := by
    rw [lookup_restrict, if_neg fun h => h.2 hx]
  rw [enter] at hr
  dsimp only at hr
  split at hr
  · simp [hrestrict] at hr
  · rcases mem_foldl_bind (mem_of_lookup hr) with hmem | hmem
    · obtain ⟨y, t, ht, he⟩ := exists_binder_of_rename hmem
      exact ⟨_, y, t, ht, he⟩
    · simp only [restrict, List.mem_filter, Bool.and_eq_true, Bool.not_eq_true',
        List.contains_eq_mem, decide_eq_false_iff_not] at hmem
      exact absurd hx hmem.2.2

end Subst

/-! ## Filling variables -/

/-- Code under some conventions is under others when its binders get other names. -/
structure Conventions.Renames (S₀ S : Conventions) : Prop where
  context : S.context = S₀.context
  implicit : S.implicit = S₀.implicit
  accepts : S.accepts = S₀.accepts
  name : ∀ x, S₀.mayBind x → S.mayBind x
  renamed : ∀ x n, S.mayBind x → S.mayBind (Naming.renamed x n)

theorem Conventions.Renames.target {S₀ S : Conventions} (h : S₀.Renames S) : S.Renames S :=
  ⟨rfl, rfl, rfl, fun _ => id, h.renamed⟩

/-- Names that may be bound, and those that substitution makes of them. -/
inductive Conventions.Name (S : Conventions) : String → Prop where
  | own {x : String} (h : S.mayBind x) : S.Name x
  | renamed {x : String} {n : Nat} (h : S.Name x) : S.Name (Naming.renamed x n)

/-- The conventions of code in which something has been replaced. -/
def Conventions.filled (S : Conventions) : Conventions := { S with mayBind := S.Name }

theorem Conventions.renames_filled (S : Conventions) : S.Renames S.filled :=
  ⟨rfl, rfl, rfl, fun _ => .own, fun _ _ => .renamed⟩

/-- An expression has a type wherever its free variables have the types they have in `Λ`. -/
def Supplies (S : Conventions) (this : Option Typ) (Λ : Locals) (e : Expr) (τ : Typ) : Prop :=
  ∀ Λ' : Locals, Λ'.formals = none →
    (∀ x ∈ e.freeVars, Λ'.annotated x = Λ.annotated x ∧ Λ'.actual x = Λ.actual x) →
    HasType S this Λ' e τ

/-- What a substitution brings into an expression has the types of what it replaces, and for formals
and the receiver the annotations that are expected. What is not replaced has its types in the new
scope. -/
structure Fills (S : Conventions) (s : Subst) (this : Option Typ) (Λ : Locals) (this' : Option Typ)
    (Λ' : Locals) (e : Expr) : Prop where
  formals : Λ'.formals = none
  own : Λ.formals.isSome ∨ s = {}
  receiver : e.mentionsThis = true → ∀ τ ∈ this, match s.receiver with
    | none => this' = some τ ∧ Λ.receiver? = none
    | some r => r.typ.sort = Prelude.refSort ∧ Λ.receiver? = some r.typ ∧ Supplies S this' Λ' r τ
  var : ∀ x ∈ e.freeVars, ∀ t ∈ Λ.annotated x, ∀ τ ∈ Λ.actual x, match s.map.lookup x with
    | none => Λ'.actual x = some τ ∧ Λ.argument? x = none ∧
        ∃ t', Λ'.annotated x = some t' ∧ t'.sort = t.sort ∧ t.Admits t'
    | some r => t.Admits r.typ ∧ r.typ = (Λ.argument? x).getD t ∧ Supplies S this' Λ' r τ

/-- Substitution keeps the annotation of all but variables and the receiver. -/
theorem Expr.typ_subst {e : Expr} (hvar : ∀ i x, e ≠ .var i x) (hthis : ∀ i, e ≠ .this i)
    (s : Subst) : (e.subst s).typ = e.typ := by
  cases e with
  | bool | int | null => rfl
  | var i x => exact absurd rfl (hvar i x)
  | this i => exact absurd rfl (hthis i)
  | quant => rw [subst_quant]; rfl
  | setComp i bs r t =>
    obtain ⟨t', heq, -⟩ := setComp_subst_eq s i bs r t
    rw [heq]
    rfl
  | mapComp => rw [subst_mapComp]; rfl
  | letIn => rw [subst_letIn]; rfl
  | _ =>
    simp only [subst_field, subst_index, subst_slice, subst_update, subst_arrayLength,
      subst_display, subst_mapDisplay, subst_ctor, subst_destruct, subst_isCtor, subst_old,
      subst_fresh, subst_unary, subst_binary, subst_ite, subst_cases, subst_call]
    rfl

theorem Expr.mem_freeVars_self (i : Info) (x : String) : x ∈ (var i x).freeVars := by
  simp [freeVars]

theorem Expr.mentionsThis_self (i : Info) : (this i).mentionsThis = true :=
  mentionsThis_iff.2 (.inl ⟨i, rfl⟩)

namespace Fills

variable {S₀ S : Conventions} {s inner : Subst} {this this' : Option Typ} {Λ Λ' : Locals}
  {e d : Expr} {τ : Typ}

/-- The annotation of a variable admits the one of what replaces it. -/
theorem admits_var {i : Info} {x : String} (h : HasType S₀ this Λ (.var i x) τ)
    (hs : Fills S s this Λ this' Λ' (.var i x)) : i.typ.Admits ((Expr.var i x).subst s).typ := by
  cases h with
  | var ht hsort hann hown hτ hadm =>
    have hvar := hs.var x (Expr.mem_freeVars_self i x) _ ht _ hτ
    rw [Expr.subst_var]
    cases hx : s.map.lookup x with
    | none => exact .refl _
    | some r =>
      rw [hx] at hvar
      exact hann.trans hvar.1

theorem typ_this {i : Info} (h : HasType S₀ this Λ (.this i) τ)
    (hs : Fills S s this Λ this' Λ' (.this i)) :
    ((Expr.this i).subst s).typ.sort = Prelude.refSort ∧
      i.typ.Admits ((Expr.this i).subst s).typ := by
  cases h with
  | this hthis htyp hcls hadm =>
    have hreceiver := hs.receiver (Expr.mentionsThis_self i) _ hthis
    rw [Expr.subst_this]
    cases hr : s.receiver with
    | none => exact ⟨htyp, .refl _⟩
    | some r =>
      rw [hr] at hreceiver
      exact ⟨hreceiver.1, .of_class htyp hcls hreceiver.1⟩

/-- An annotation admits the one after the substitution. -/
theorem typ_admits (h : HasType S₀ this Λ e τ) (hs : Fills S s this Λ this' Λ' e) :
    e.typ.Admits (e.subst s).typ := by
  by_cases hvar : ∃ i x, e = .var i x
  · obtain ⟨i, x, rfl⟩ := hvar
    exact admits_var h hs
  by_cases hthis : ∃ i, e = .this i
  · obtain ⟨i, rfl⟩ := hthis
    exact (typ_this h hs).2
  simp only [not_exists] at hvar hthis
  rw [Expr.typ_subst hvar hthis]
  exact .refl _

/-- The annotation after the substitution is the expected one. -/
theorem typ_eq (h : HasType S₀ this Λ e τ) (hs : Fills S s this Λ this' Λ' e) :
    (e.subst s).typ = e.typIn Λ := by
  by_cases hvar : ∃ i x, e = .var i x
  · obtain ⟨i, x, rfl⟩ := hvar
    cases h with
    | @var _ _ _ t _ ht hsort hann hown hτ hadm =>
      have hvar := hs.var x (Expr.mem_freeVars_self i x) _ ht _ hτ
      rw [Expr.subst_var, Expr.typIn]
      cases hx : s.map.lookup x with
      | none =>
        rw [hx] at hvar
        simp only [hvar.2.1]
        rfl
      | some r =>
        rw [hx] at hvar
        -- something is replaced, so the code is as it is declared
        have hdeclared : Λ.formals.isSome := hs.own.resolve_right (by rintro rfl; simp at hx)
        rw [hown hdeclared]
        exact hvar.2.1
  by_cases hthis : ∃ i, e = .this i
  · obtain ⟨i, rfl⟩ := hthis
    cases h with
    | this hthis htyp hcls hadm =>
      have hreceiver := hs.receiver (Expr.mentionsThis_self i) _ hthis
      rw [Expr.subst_this, Expr.typIn]
      cases hr : s.receiver with
      | none =>
        rw [hr] at hreceiver
        simp only [hreceiver.2]
        rfl
      | some r =>
        rw [hr] at hreceiver
        simp only [hreceiver.2.1]
        rfl
  simp only [not_exists] at hvar hthis
  rw [Expr.typ_subst hvar hthis]
  cases e with
  | var i x => exact absurd rfl (hvar i x)
  | this i => exact absurd rfl (hthis i)
  | _ => rfl

/-- An expression that keeps its representation keeps its sort. -/
theorem sort_eq (h : HasType S₀ this Λ e τ) (hs : Fills S s this Λ this' Λ' e)
    (hkeep : e.Keeps Λ) : (e.subst s).typ.sort = e.typ.sort :=
  (congrArg Typ.sort (typ_eq h hs)).trans hkeep

/-- In parts where nothing is bound, the same is filled. -/
theorem plain (hs : Fills S s this Λ this' Λ' e) (hp : ([], d) ∈ e.parts) :
    Fills S s this Λ this' Λ' d where
  formals := hs.formals
  own := hs.own
  receiver h := hs.receiver (Expr.mentionsThis_iff.2 (.inr ⟨_, hp, h⟩))
  var x hx := hs.var x (Expr.mem_freeVars.2 (.inr ⟨_, hp, hx, by simp⟩))

end Fills

section

variable {S₀ S : Conventions} {s inner : Subst} {this this' : Option Typ} {Λ Λ' : Locals}
  {e d : Expr} {τ : Typ} {bs bs' : List Binder} {τs : List Typ}

theorem Binds.length (h : Binds S bs τs) : τs.length = bs.length := h.admits.length_eq.symm

theorem Locals.annotated_of_notMem {x : String} (hx : x ∉ bs.map (·.1)) :
    (Λ.bind bs τs).annotated x = Λ.annotated x :=
  Typing.bind_of_notMem hx

theorem Locals.actual_of_notMem {x : String} (hx : x ∉ bs.map (·.1)) :
    (Λ.bind bs τs).actual x = Λ.actual x := by
  refine Typing.bind_of_notMem fun hmem => hx ?_
  obtain ⟨p, hp, rfl⟩ := List.mem_map.1 hmem
  exact (List.of_mem_zip hp).1

/-- Names that do not occur free may be bound. -/
theorem Supplies.below (h : Supplies S this Λ e τ) (hnames : ∀ x ∈ e.freeVars, x ∉ bs.map (·.1)) :
    Supplies S this (Λ.bind bs τs) e τ := by
  refine fun Λ' hΛ' hagree => h Λ' hΛ' fun x hx => ?_
  obtain ⟨hann, hact⟩ := hagree x hx
  exact ⟨hann.trans (Locals.annotated_of_notMem (hnames x hx)),
    hact.trans (Locals.actual_of_notMem (hnames x hx))⟩

/-- The types of a bound variable are at its place. -/
theorem Locals.bind_lastIndex (hlen : τs.length = bs.length) {x : String} {n : Nat}
    (hn : lastIndex (bs.map (·.1)) x = some n) :
    (Λ.bind bs τs).annotated x = bs[n]?.map (·.2) ∧ (Λ.bind bs τs).actual x = τs[n]? := by
  have hnames : ((bs.map (·.1)).zip τs).map (·.1) = bs.map (·.1) :=
    List.map_fst_zip (by simp [hlen])
  refine ⟨?_, ?_⟩
  · show Λ.annotated.bind bs x = _
    rw [Typing.bind_lastIndex, hn, ← List.getElem?_map]
  · show Λ.actual.bind _ x = _
    rw [Typing.bind_lastIndex, hnames, hn]
    show (((bs.map (·.1)).zip τs).map (·.2))[n]? = _
    rw [List.map_snd_zip (by simp [hlen])]

theorem forall₂_getElem? {α β : Type} {R : α → β → Prop} {l : List α} {l' : List β}
    (h : List.Forall₂ R l l') {n : Nat} {a : α} (ha : l[n]? = some a) :
    ∃ b, l'[n]? = some b ∧ R a b := by
  induction h generalizing n with
  | nil => simp at ha
  | @cons a' b' _ _ hab _ ih =>
    cases n with
    | zero =>
      obtain rfl : a' = a := by simpa using ha
      exact ⟨b', rfl, hab⟩
    | succ n => exact ih (by simpa using ha)

/-- What is carried into a scope fills its variables. -/
theorem Fills.below {scope : List Expr} (hs : Fills S s this Λ this' Λ' e)
    (ho : Subst.Opens s (bs.map (·.1)) scope inner (bs'.map (·.1))) (hd : d ∈ scope)
    (hp : (bs.map (·.1), d) ∈ e.parts) (hbinds : Binds S₀ bs τs)
    (htyps : List.Forall₂ (fun b b' => b'.2.sort = b.2.sort ∧ b.2.Admits b'.2) bs bs')
    (hrenames : ∀ x ∈ bs.map (·.1), ∀ r ∈ inner.map.lookup x,
      ∃ span y t, (x, t) ∈ bs ∧ r = .mkVar span y t)
    (hown : s = {} → inner = {}) :
    Fills S inner this (Λ.bind bs τs) this' (Λ'.bind bs' τs) d where
  formals := by simp [Locals.bind, hs.formals]
  own := hs.own.imp (by simp [Locals.bind]) hown
  receiver hmentions τ hτ := by
    have hreceiver := hs.receiver (Expr.mentionsThis_iff.2 (.inr ⟨_, hp, hmentions⟩)) τ hτ
    have hsame := ho.receiver d hd hmentions
    rw [hsame]
    cases hr : s.receiver with
    | none =>
      rw [hr] at hreceiver
      exact ⟨hreceiver.1, Locals.receiver?_bind.trans hreceiver.2⟩
    | some r =>
      rw [hr] at hreceiver
      obtain ⟨href, hann, hsupplies⟩ := hreceiver
      exact ⟨href, Locals.receiver?_bind.trans hann,
        hsupplies.below (ho.receiver_apart r (hsame.trans hr))⟩
  var x hx t ht τ hτ := by
    by_cases hbound : x ∈ bs.map (·.1)
    · -- a bound variable has the types at its place, under its name or under a new one
      obtain ⟨n, hn⟩ := Option.ne_none_iff_exists'.1 (mt lastIndex_eq_none.1 (not_not.2 hbound))
      obtain ⟨hann, hact⟩ := Locals.bind_lastIndex (Λ := Λ) hbinds.length hn
      obtain ⟨b, hb, rfl⟩ := Option.map_eq_some_iff.1 (hann.symm.trans ht)
      have hτ : τs[n]? = some τ := hact.symm.trans hτ
      obtain ⟨b', hb', hsort, hadm'⟩ := forall₂_getElem? htyps hb
      obtain ⟨τ', hτ', hadm⟩ := forall₂_getElem? hbinds.admits hb
      obtain rfl : τ' = τ := Option.some.inj (hτ'.symm.trans hτ)
      have hplaced {y : String} (hy : lastIndex (bs'.map (·.1)) y = lastIndex (bs.map (·.1)) x) :
          (Λ'.bind bs' τs).actual y = some τ' ∧ (Λ'.bind bs' τs).annotated y = some b'.2 := by
        have hlen : τs.length = bs'.length := hbinds.length.trans htyps.length_eq
        obtain ⟨hann', hact'⟩ := Locals.bind_lastIndex (Λ := Λ') hlen (hy.trans hn)
        exact ⟨hact'.trans hτ, hann'.trans (by rw [hb']; rfl)⟩
      rcases ho.inside x hbound with ⟨hnone, hplace⟩ | ⟨i, y, hsome, hplace⟩
      · rw [hnone]
        exact ⟨(hplaced hplace).1, Locals.argument?_bind_of_mem hbound, b'.2, (hplaced hplace).2,
          hsort, hadm'⟩
      · obtain ⟨span, y', t, ht, heq⟩ := hrenames x hbound _ hsome
        cases heq
        obtain rfl : t = b.2 := by
          have := Typing.bind_of_nodup (Γ := Λ.annotated) hbinds.nodup ht
          exact Option.some.inj (this.symm.trans (hann.trans (by rw [hb]; rfl)))
        rw [hsome]
        refine ⟨.refl _, ?_, fun Λ'' hΛ'' hagree => ?_⟩
        · rw [Locals.argument?_bind_of_mem hbound]
          rfl
        · obtain ⟨hann'', hact''⟩ := hagree y (Expr.mem_freeVars_self _ y)
          exact .var (hann''.trans (hplaced hplace).2) hsort hadm' (by simp [hΛ''])
            (hact''.trans (hplaced hplace).1) hadm
    · obtain ⟨hname, hlookup⟩ := ho.outside d hd x hx hbound
      have hvar := hs.var x (Expr.mem_freeVars.2 (.inr ⟨_, hp, hx, hbound⟩)) t
        ((Locals.annotated_of_notMem hbound).symm.trans ht) τ
        ((Locals.actual_of_notMem hbound).symm.trans hτ)
      rw [hlookup]
      cases hr : s.map.lookup x with
      | none =>
        rw [hr] at hvar
        obtain ⟨hact, hnone, t', hann, hsort, hadm⟩ := hvar
        exact ⟨(Locals.actual_of_notMem hname).trans hact,
          (Locals.argument?_bind_of_notMem hbound).trans hnone, t',
          (Locals.annotated_of_notMem hname).trans hann, hsort, hadm⟩
      | some r =>
        rw [hr] at hvar
        obtain ⟨hadm, hann, hsupplies⟩ := hvar
        refine ⟨hadm, ?_, hsupplies.below (ho.apart x hbound r (hlookup.trans hr))⟩
        rw [Locals.argument?_bind_of_notMem hbound]
        exact hann

/-- Binders that keep their types under their new names. -/
theorem forall₂_rebind {names : List String} (hlen : names.length = bs.length) :
    List.Forall₂ (fun b b' => b'.2.sort = b.2.sort ∧ b.2.Admits b'.2) bs
      (Subst.rebind bs names) := by
  induction bs generalizing names with
  | nil => exact .nil
  | cons b bs ih =>
    cases names with
    | nil => cases hlen
    | cons y names => exact .cons ⟨rfl, .refl _⟩ (ih (by simpa using hlen))

/-- Below binders, what the substitution carries on fills the variables. -/
theorem Fills.enter (first : Expr) (others : List Expr) (hs : Fills S s this Λ this' Λ' e)
    (hbinds : Binds S₀ bs τs) (hd : d ∈ first :: others) (hp : (bs.map (·.1), d) ∈ e.parts)
    (hnames : bs'.map (·.1) = (s.enter bs first others).2)
    (htyps : List.Forall₂ (fun b b' => b'.2.sort = b.2.sort ∧ b.2.Admits b'.2) bs bs') :
    Fills S (s.enter bs first others).1 this (Λ.bind bs τs) this' (Λ'.bind bs' τs) d := by
  refine hs.below (hnames ▸ s.enter_opens bs first others) hd hp hbinds htyps
    (fun x hx r hr => Subst.exists_binder_of_enter hx hr) ?_
  rintro rfl
  rw [Subst.enter_empty]

theorem Fills.rebind (first : Expr) (others : List Expr) (hs : Fills S s this Λ this' Λ' e)
    (hbinds : Binds S₀ bs τs) (hd : d ∈ first :: others) (hp : (bs.map (·.1), d) ∈ e.parts) :
    Fills S (s.enter bs first others).1 this (Λ.bind bs τs) this'
      (Λ'.bind (Subst.rebind bs (s.enter bs first others).2) τs) d :=
  hs.enter first others hbinds hd hp (Subst.rebind_names (s.length_enter ..))
    (forall₂_rebind (s.length_enter ..))

/-- Binders with other names and annotations for the same types. -/
theorem Binds.enter (hS : S₀.Renames S) {first : Expr} {others : List Expr} (h : Binds S₀ bs τs)
    (hnames : bs'.map (·.1) = (s.enter bs first others).2)
    (hadm : List.Forall₂ (fun b τ => b.2.Admits τ) bs' τs) : Binds S bs' τs where
  nodup := hnames ▸ Subst.nodup_enter h.nodup
  name b hb := Subst.forall_names_enter hS.renamed (fun b hb => hS.name _ (h.name b hb))
    first others b.1
    (hnames ▸ List.mem_map_of_mem (f := Prod.fst) hb)
  admits := hadm

theorem forall₂_admits_rebind {names : List String} (hlen : names.length = bs.length)
    (h : List.Forall₂ (fun b τ => b.2.Admits τ) bs τs) :
    List.Forall₂ (fun b τ => b.2.Admits τ) (Subst.rebind bs names) τs := by
  induction h generalizing names with
  | nil => exact .nil
  | cons hb _ ih =>
    cases names with
    | nil => cases hlen
    | cons y names => exact .cons hb (ih (by simpa using hlen))

theorem Binds.rebind (hS : S₀.Renames S) (s : Subst) (first : Expr) (others : List Expr)
    (h : Binds S₀ bs τs) : Binds S (Subst.rebind bs (s.enter bs first others).2) τs :=
  h.enter hS (Subst.rebind_names (s.length_enter ..))
    (forall₂_admits_rebind (s.length_enter ..) h.admits)

theorem forall₂_fits_rebind {names : List String} {fs : List Binder}
    (hlen : names.length = bs.length) (h : List.Forall₂ (fun b f => f.2.Fits b.2) bs fs) :
    List.Forall₂ (fun b f => f.2.Fits b.2) (Subst.rebind bs names) fs := by
  induction h generalizing names with
  | nil => exact .nil
  | cons hb _ ih =>
    cases names with
    | nil => cases hlen
    | cons y names => exact .cons hb (ih (by simpa using hlen))

theorem forall_mem_rebind {names : List String} {P : Typ → Prop} (h : ∀ b ∈ bs, P b.2) :
    ∀ b ∈ Subst.rebind bs names, P b.2 := by
  intro b hb
  obtain ⟨⟨b', y⟩, hmem, rfl⟩ := List.mem_map.1 hb
  exact h b' (List.of_mem_zip hmem).1

/-! ## Substitution -/

/-- An expression with a substitution applied, and its type. -/
def Subst.refill (s : Subst) (p : Expr × Typ) : Expr × Typ := (p.1.subst s, p.2)

theorem map_subst_fst (s : Subst) (ps : List (Expr × Typ)) :
    (ps.map (·.1)).map (Expr.subst s) = (ps.map s.refill).map (·.1) := by
  simp [Subst.refill]

theorem option_map_subst_fst (s : Subst) (o : Option (Expr × Typ)) :
    (o.map (·.1)).map (Expr.subst s) = (o.map s.refill).map (·.1) := by
  cases o <;> rfl

theorem forall_mem_refill {P : Expr × Typ → Prop} {ps : List (Expr × Typ)}
    (h : ∀ p ∈ ps, P (s.refill p)) : ∀ p ∈ ps.map s.refill, P p :=
  List.forall_mem_map.2 h

theorem forall_mem_option_refill {P : Expr × Typ → Prop} {o : Option (Expr × Typ)}
    (h : ∀ p ∈ o, P (s.refill p)) : ∀ p ∈ o.map s.refill, P p := by
  cases o with
  | none => simp
  | some p => simpa using h p rfl

theorem forall₂_imp_of_mem {α β : Type} {P Q : α → β → Prop} {l : List α} {l' : List β}
    (h : List.Forall₂ P l l') (hPQ : ∀ a ∈ l, ∀ b, P a b → Q a b) : List.Forall₂ Q l l' := by
  induction h with
  | nil => exact .nil
  | cons hab _ ih =>
    exact .cons (hPQ _ List.mem_cons_self _ hab) (ih fun a ha => hPQ a (List.mem_cons_of_mem _ ha))

theorem forall₂_zip_map {α β γ : Type} {R : α → β → Prop} {f : α → β} {l : List (γ × α)}
    {names : List γ} (hlen : names.length = l.length) (h : ∀ b ∈ l, R b.2 (f b.2)) :
    List.Forall₂ (fun b b' => R b.2 b'.2) l (names.zip (l.map fun b => f b.2)) := by
  induction l generalizing names with
  | nil => rw [List.length_eq_zero_iff.1 hlen]; exact .nil
  | cons b l ih =>
    cases names with
    | nil => cases hlen
    | cons y names =>
      obtain ⟨hb, hl⟩ := List.forall_mem_cons.1 h
      exact .cons hb (ih (by simpa using hlen) hl)

/-- Code has its types also where arguments replace its variables. -/
theorem HasType.subst (hS : S₀.Renames S) (h : HasType S₀ this Λ e τ)
    (hs : Fills S s this Λ this' Λ' e) : HasType S this' Λ' (e.subst s) τ := by
  induction h generalizing s Λ' with
  | bool htyp hadm => exact .bool htyp hadm
  | int htyp hadm => exact .int htyp hadm
  | null htyp hadm => exact .null htyp hadm
  | @var Λ i x t τ ht hsort hann hown hτ hadm =>
    have hvar := hs.var x (Expr.mem_freeVars_self i x) t ht τ hτ
    rw [Expr.subst_var]
    cases hx : s.map.lookup x with
    | none =>
      rw [hx] at hvar
      obtain ⟨hact, -, t', hann', hsort', hadm'⟩ := hvar
      exact .var hann' (hsort'.trans hsort) (hann.trans hadm') (by simp [hs.formals]) hact hadm
    | some r =>
      rw [hx] at hvar
      exact hvar.2.2 Λ' hs.formals fun _ _ => ⟨rfl, rfl⟩
  | @this Λ i τ hthis htyp hcls hadm =>
    have hreceiver := hs.receiver (Expr.mentionsThis_self i) τ hthis
    rw [Expr.subst_this]
    cases hr : s.receiver with
    | none =>
      rw [hr] at hreceiver
      exact .this hreceiver.1 htyp hcls hadm
    | some r =>
      rw [hr] at hreceiver
      exact hreceiver.2.2 Λ' hs.formals fun _ _ => ⟨rfl, rfl⟩
  | field hfield hobj htyp hadm he ih =>
    have hs := hs.plain (List.mem_singleton_self _)
    rw [Expr.subst_field]
    exact .field (hS.context ▸ hfield) ((hs.typ_admits he).sort_eq_of hobj (by decide)) htyp hadm
      (ih hs)
  | @index Λ i a b τ τa τb htyp hactual hkey hadm ha hb iha ihb =>
    have hsa := hs.plain (d := a) (by simp [Expr.parts])
    have hsb := hs.plain (d := b) (by simp [Expr.parts])
    rw [Expr.subst_index]
    have hkey' : ∀ key, (a.subst s).typ = .multiset key → (b.subst s).typ.sort = key.sort := by
      rw [hsa.typ_eq ha, hsb.typ_eq hb]
      exact hkey
    have hplain := Locals.plain_of_none hs.formals
    refine .index ?_ hactual ?_ hadm (iha hsa) (ihb hsb)
    · exact htyp.admits (hsa.typ_admits ha) (hsb.typ_admits hb) hactual (iha hsa).admits
        (ihb hsb).admits hadm hkey'
    · rw [Expr.typIn_of_plain hplain, Expr.typIn_of_plain hplain]
      exact hkey'
  | @slice Λ i e lo hi τ τe hcoll htyp hint hadm he hlo hhi ih ihlo ihhi =>
    have hse := hs.plain (d := e) (by simp [Expr.parts])
    have hpart : ∀ p, p ∈ lo ∨ p ∈ hi → Fills S s this Λ this' Λ' p.1 := fun p hp =>
      hs.plain (by
        simp only [Expr.parts, List.mem_map, List.mem_cons, List.mem_append, Option.mem_toList,
          Option.map_eq_some_iff]
        exact ⟨p.1, .inr (hp.imp (fun h => ⟨p, h, rfl⟩) fun h => ⟨p, h, rfl⟩), rfl⟩)
    have hsort : ∀ p, p ∈ lo ∨ p ∈ hi → (p.1.subst s).typ.sort = .int := by
      intro p hp
      have hp' : HasType S₀ this Λ p.1 p.2 := hp.elim (hlo p) (hhi p)
      exact ((hpart p hp).typ_admits hp').sort_eq_of (hint p hp) (by decide)
    rw [Expr.subst_slice, option_map_subst_fst, option_map_subst_fst]
    refine .slice ((hse.typ_admits he).isSliced hcoll) htyp (fun p hp => ?_) hadm (ih hse)
      (forall_mem_option_refill fun p hp => ihlo p hp (hpart p (.inl hp)))
      (forall_mem_option_refill fun p hp => ihhi p hp (hpart p (.inr hp)))
    rcases hp with hp | hp
    · obtain ⟨q, hq, rfl⟩ := Option.map_eq_some_iff.1 hp
      exact hsort q (.inl hq)
    · obtain ⟨q, hq, rfl⟩ := Option.map_eq_some_iff.1 hp
      exact hsort q (.inr hq)
  | @update Λ i e k v τ τe τk τv hcoll hactual hkey htyp hadm he hk hv ihe ihk ihv =>
    have hse := hs.plain (d := e) (by simp [Expr.parts])
    have hsk := hs.plain (d := k) (by simp [Expr.parts])
    have hsv := hs.plain (d := v) (by simp [Expr.parts])
    have hbox : e.typ.isBoxed = false := by
      cases heq : e.typ <;> rw [heq] at hcoll <;> first | rfl | cases hcoll
    rw [Expr.subst_update]
    have hkey' : ∀ key value, (e.subst s).typ = .map key value →
        (k.subst s).typ.sort = key.sort := by
      rw [hse.typ_eq he, hsk.typ_eq hk]
      exact hkey
    have hplain := Locals.plain_of_none hs.formals
    refine .update ?_ hactual ?_ (htyp.trans ((hse.typ_admits he).sort_eq hbox).symm) hadm
      (ihe hse) (ihk hsk) (ihv hsv)
    · exact hcoll.admits (hse.typ_admits he) (hsk.typ_admits hk) hactual (ihe hse).admits
        (ihv hsv).admits hkey'
    · rw [Expr.typIn_of_plain hplain, Expr.typIn_of_plain hplain]
      exact hkey'
  | arrayLength harray htyp hadm he ih =>
    have hs := hs.plain (List.mem_singleton_self _)
    rw [Expr.subst_arrayLength]
    exact .arrayLength ((hs.typ_admits he).sort_eq_of harray (by decide)) htyp hadm (ih hs)
  | @display Λ i kind ps elem τ elem' hkind hactual hfit hadm hps ih =>
    rw [Expr.subst_display, map_subst_fst]
    refine .display hkind hactual (forall_mem_refill hfit) hadm (forall_mem_refill fun p hp => ?_)
    exact ih p hp (hs.plain (by simpa [Expr.parts] using ⟨p.2, hp⟩))
  | @mapDisplay Λ i kvs key value key' value' htyp hfit hadm hkeys hvalues ihk ihv =>
    have hentries : ((kvs.map fun p => (p.1.1, p.2.1)).map fun p =>
        (p.1.subst s, p.2.subst s)) =
        (kvs.map fun p => (s.refill p.1, s.refill p.2)).map fun p => (p.1.1, p.2.1) := by
      simp [Subst.refill]
    rw [Expr.subst_mapDisplay, hentries]
    refine .mapDisplay htyp (List.forall_mem_map.2 hfit) hadm
      (List.forall_mem_map.2 fun p hp => ihk p hp (hs.plain ?_))
      (List.forall_mem_map.2 fun p hp => ihv p hp (hs.plain ?_))
    · exact List.mem_append_left _ (List.mem_map.2 ⟨_, List.mem_map_of_mem hp, rfl⟩)
    · exact List.mem_append_right _ (List.mem_map.2 ⟨_, List.mem_map_of_mem hp, rfl⟩)
  | @ctor Λ i dt k ps d ctor τ hd hctor htyp hargs hadm hps ih =>
    rw [Expr.subst_ctor, map_subst_fst]
    refine .ctor (hS.context ▸ hd) hctor htyp (List.forall₂_map_left_iff.2 hargs) hadm
      (forall_mem_refill fun p hp => ?_)
    exact ih p hp (hs.plain (by simpa [Expr.parts] using ⟨p.2, hp⟩))
  | destruct hd hctor hfield hvalue htyp hadm he ih =>
    have hs := hs.plain (List.mem_singleton_self _)
    rw [Expr.subst_destruct]
    exact .destruct (hS.context ▸ hd) hctor hfield
      ((hs.typ_admits he).sort_eq_of hvalue (by decide)) htyp hadm (ih hs)
  | isCtor hd hctor hvalue htyp hadm he ih =>
    have hs := hs.plain (List.mem_singleton_self _)
    rw [Expr.subst_isCtor]
    exact .isCtor (hS.context ▸ hd) hctor ((hs.typ_admits he).sort_eq_of hvalue (by decide)) htyp
      hadm (ih hs)
  | old htyp hkeep hadm he ih =>
    have hse := hs.plain (List.mem_singleton_self _)
    rw [Expr.subst_old]
    exact .old (htyp.trans (hse.sort_eq he hkeep).symm)
      (Expr.keeps_of_plain (Locals.plain_of_none hs.formals)) hadm
      (ih hse)
  | fresh hframe htyp hadm he ih =>
    have hs := hs.plain (List.mem_singleton_self _)
    rw [Expr.subst_fresh]
    exact .fresh ((hs.typ_admits he).isFrame hframe) htyp hadm (ih hs)
  | unary htyp hadm he ih =>
    have hs := hs.plain (List.mem_singleton_self _)
    rw [Expr.subst_unary]
    exact .unary (htyp.admits (hs.typ_admits he)) hadm (ih hs)
  | @binary Λ i op a b τ τa τb htyp hactual hadm ha hb iha ihb =>
    have hsa := hs.plain (d := a) (by simp [Expr.parts])
    have hsb := hs.plain (d := b) (by simp [Expr.parts])
    rw [Expr.subst_binary]
    exact .binary (htyp.admits (hsa.typ_admits ha) (hsb.typ_admits hb) hactual (iha hsa).admits
      (ihb hsb).admits) hactual hadm (iha hsa) (ihb hsb)
  | @quant Λ i q bs τs r e ts ind τ τe hbinds hbs htyp hbool hadm hr he hts ihr ihe ihts =>
    have hmap (u : Subst) : (ts.map (·.map (·.1))).map (fun t => t.map (Expr.subst u)) =
        (ts.map (·.map u.refill)).map (·.map (·.1)) := by
      simp only [List.map_map]
      exact List.map_congr_left fun t _ => map_subst_fst u t
    rw [Expr.subst_quant]
    dsimp only
    rw [option_map_subst_fst, hmap]
    have hbelow : ∀ d ∈ e :: ((r.map (·.1)).toList ++ (ts.map (·.map (·.1))).flatten), _ :=
      fun d hd => hs.rebind (d := d) _ _ hbinds hd (List.mem_map_of_mem hd)
    have hrange : ∀ p ∈ r, p.1 ∈ e :: ((r.map (·.1)).toList ++ (ts.map (·.map (·.1))).flatten) := by
      rintro p rfl
      simp
    have hterm : ∀ t ∈ ts, ∀ p ∈ t,
        p.1 ∈ e :: ((r.map (·.1)).toList ++ (ts.map (·.map (·.1))).flatten) := by
      intro t ht p hp
      exact List.mem_cons_of_mem _ (List.mem_append_right _ (List.mem_flatten_of_mem
        (List.mem_map_of_mem ht) (List.mem_map_of_mem hp)))
    have hse := hbelow e List.mem_cons_self
    refine .quant (hbinds.rebind hS s e _) (forall_mem_rebind (hS.context ▸ hbs)) htyp ⟨?_, ?_⟩ hadm
      (forall_mem_option_refill fun p hp => ihr p hp (hbelow _ (hrange p hp))) (ihe hse)
      (List.forall_mem_map.2 fun t ht => forall_mem_refill fun p hp =>
        ihts t ht p hp (hbelow _ (hterm t ht p hp)))
    · exact (hse.typ_admits he).sort_eq_of hbool.1 (by decide)
    · exact forall_mem_option_refill fun p hp =>
        ((hbelow _ (hrange p hp)).typ_admits (hr p hp)).sort_eq_of (hbool.2 p hp) (by decide)
  | @setComp Λ i bs τs r t elem elem' τr hbinds hbs htyp hbool hterm helem hadm hr ht ihr iht =>
    obtain ⟨t', heq, ht'⟩ := Expr.setComp_subst_eq s i bs r (t.map (·.1))
    have hbelow : ∀ d ∈ r :: (t.map (·.1)).toList, _ :=
      fun d hd => hs.rebind (d := d) _ _ hbinds hd (List.mem_map_of_mem hd)
    have hsr := hbelow r List.mem_cons_self
    have hone : t = none → ∃ b τ, Subst.rebind bs (s.enter bs r (t.map (·.1)).toList).2 = [b] ∧
        τs = [τ] ∧ b.2.Admits τ ∧ τ.Fits elem' := by
      intro hnone
      obtain ⟨b, τ, rfl, rfl, hfit⟩ := hterm hnone
      obtain ⟨x, hx⟩ := List.length_eq_one_iff.1 (s.length_enter [b] r (t.map (·.1)).toList)
      exact ⟨(x, b.2), τ, by rw [hx]; rfl, rfl, (List.forall₂_cons.1 hbinds.admits).1, hfit⟩
    rw [heq]
    rcases ht' with rfl | ⟨hnone, j, x, xs, hnames, rfl, b, hb, hj⟩
    · rw [option_map_subst_fst]
      refine .setComp (hbinds.rebind hS s r _) (forall_mem_rebind (hS.context ▸ hbs)) htyp
        ((hsr.typ_admits hr).sort_eq_of hbool (by decide)) (fun hnone => ?_)
        (forall_mem_option_refill helem) hadm (ihr hsr)
        (forall_mem_option_refill fun p hp => iht p hp (hbelow _ (by simp [Option.mem_def.1 hp])))
      obtain ⟨b, τ, hb, hτ, -, hfit⟩ := hone (Option.map_eq_none_iff.1 hnone)
      exact ⟨b, τ, hb, hτ, hfit⟩
    · -- the term that is made explicit is the only bound variable
      have hnone := Option.map_eq_none_iff.1 hnone
      subst hnone
      simp only [Option.map_none, Option.toList_none] at hnames hsr ⊢
      obtain ⟨b', τ, rfl, rfl, hfit⟩ := hterm rfl
      obtain rfl : b' = b := Option.some.inj hb
      have hxs : xs = [] := by
        have := hnames ▸ s.length_enter [b'] r []
        simpa using this
      have hnames : (s.enter [b'] r []).2 = [x] := hxs ▸ hnames
      have hbinds' := hbinds.rebind hS s r []
      have hrebind : Subst.rebind [b'] [x] = [(x, b'.2)] := rfl
      rw [hnames, hrebind] at hbinds' hsr ⊢
      have hadm' : b'.2.Admits τ := (List.forall₂_cons.1 hbinds.admits).1
      have hvar : HasType S this' (Λ'.bind [(x, b'.2)] [τ]) (.var j x) τ :=
        .var (t := b'.2) (by simp [Locals.bind]) (by rw [hj]) (hj ▸ .refl _)
          (fun _ => hj) (by simp [Locals.bind]) (hj ▸ hadm')
      exact .setComp (t := some (.var j x, τ)) hbinds' (by simpa [hS.context] using hbs) htyp
        ((hsr.typ_admits hr).sort_eq_of hbool (by decide)) (by simp) (by simpa using hfit) hadm
        (ihr hsr) (by simpa using hvar)
  | @mapComp Λ i b τb r t key value key' value' τr τt hbinds hb htyp hbool hvalue hadm hr ht ihr
      iht =>
    obtain ⟨x, hx⟩ := List.length_eq_one_iff.1 (s.length_enter [b] r [t])
    have hbelow : ∀ d ∈ [r, t], Fills S (s.enter [b] r [t]).1 this (Λ.bind [b] [τb]) this'
        (Λ'.bind [(x, b.2)] [τb]) d := fun d hd => by
      have hs := hs.rebind (d := d) r [t] hbinds hd
        (List.mem_map_of_mem (f := fun d => ([b.1], d)) hd)
      rw [hx] at hs
      exact hs
    have hbinds' := hbinds.rebind hS s r [t]
    rw [hx] at hbinds'
    have hsr := hbelow r (by simp)
    rw [Expr.subst_mapComp]
    dsimp only
    rw [hx]
    exact .mapComp hbinds' (hS.context ▸ hb) htyp
      ((hsr.typ_admits hr).sort_eq_of hbool (by decide)) hvalue hadm (ihr hsr)
      (iht (hbelow t (by simp)))
  | @letIn Λ i bs e τ hnodup hnames hkeep htyp hbody hadm hbs he ihbs ihe =>
    have hsb : ∀ b ∈ bs, Fills S s this Λ this' Λ' b.2.1 := fun b hb =>
      hs.plain (List.mem_cons_of_mem _ (List.mem_map.2
        ⟨_, List.mem_map_of_mem (f := fun b => (b.1, b.2.1)) hb, rfl⟩))
    have hpairs : ((bs.map fun b => (b.1, b.2.1)).map fun p => (p.1, p.2.typ)) =
        bs.map fun b => (b.1, b.2.1.typ) := by simp
    have hbinds : Binds S₀ (bs.map fun b => (b.1, b.2.1.typ)) (bs.map (·.2.2)) := by
      refine ⟨by simpa [Function.comp_def] using hnodup, List.forall_mem_map.2 hnames, ?_⟩
      rw [List.forall₂_map_left_iff, List.forall₂_map_right_iff, List.forall₂_same]
      exact fun b hb => (hbs b hb).admits
    rw [Expr.subst_letIn]
    dsimp only
    rw [hpairs]
    generalize hscope : s.enter (bs.map fun b => (b.1, b.2.1.typ)) e [] = scope
    have hlen : scope.2.length = bs.length := by
      simpa [hscope] using s.length_enter (bs.map fun b => (b.1, b.2.1.typ)) e []
    -- the bindings under their new names
    have hfst : (scope.2.zip (bs.map fun b => s.refill b.2)).map (·.1) = scope.2 :=
      List.map_fst_zip (by simp [hlen])
    have hsnd : (scope.2.zip (bs.map fun b => s.refill b.2)).map (·.2) =
        bs.map fun b => s.refill b.2 :=
      List.map_snd_zip (by simp [hlen])
    have hnew : scope.2.zip ((bs.map fun b => (b.1, b.2.1)).map (·.2.subst s)) =
        (scope.2.zip (bs.map fun b => s.refill b.2)).map fun b => (b.1, b.2.1) := by
      rw [List.map_map, List.zip_map_right, List.zip_map_right, List.map_map]
      rfl
    have hτs : (scope.2.zip (bs.map fun b => s.refill b.2)).map (·.2.2) = bs.map (·.2.2) := by
      have := congrArg (List.map (·.2)) hsnd
      simpa [Function.comp_def, Subst.refill] using this
    have htyps := forall₂_zip_map (R := fun p q : Expr × Typ =>
        q.1.typ.sort = p.1.typ.sort ∧ p.1.typ.Admits q.1.typ) (f := s.refill) hlen
      fun b hb => ⟨(hsb b hb).sort_eq (hbs b hb) (hkeep b hb), (hsb b hb).typ_admits (hbs b hb)⟩
    have hmem : ∀ b ∈ scope.2.zip (bs.map fun b => s.refill b.2), ∃ d ∈ bs, s.refill d.2 = b.2 :=
      fun b hb => List.mem_map.1 (List.of_mem_zip hb).2
    have hnames' : ((scope.2.zip (bs.map fun b => s.refill b.2)).map
        fun b => (b.1, b.2.1.typ)).map (·.1) =
        (s.enter (bs.map fun b => (b.1, b.2.1.typ)) e []).2 := by
      rw [hscope]
      simpa [Function.comp_def] using hfst
    have hse := hs.enter (d := e) e [] hbinds List.mem_cons_self
      (by simp [Expr.parts, Function.comp_def]) hnames'
      (List.forall₂_map_left_iff.2 (List.forall₂_map_right_iff.2 htyps))
    rw [hscope] at hse
    rw [hnew]
    have hplain := Locals.plain_of_none hs.formals
    refine .letIn ?_ ?_ (fun b _ => Expr.keeps_of_plain hplain)
      (htyp.trans (hse.sort_eq he hbody).symm) (Expr.keeps_of_plain hplain.bind) hadm ?_
      (by rw [hτs]; exact ihe hse)
    · rw [hfst, ← hscope]
      exact Subst.nodup_enter hbinds.nodup
    · intro b hb
      have hname := Subst.forall_names_enter (s := s) hS.renamed
        (fun b hb => hS.name _ (hbinds.name b hb)) e [] b.1
      rw [hscope] at hname
      exact hname (List.of_mem_zip hb).1
    · intro b hb
      obtain ⟨d, hd, hdb⟩ := hmem b hb
      rw [← hdb]
      exact ihbs d hd (hsb d hd)
  | @ite Λ i e a b τ τe τa τb hbool hbranches hfit hadm he ha hb ihe iha ihb =>
    have hse := hs.plain (d := e) (by simp [Expr.parts])
    have hsa := hs.plain (d := a) (by simp [Expr.parts])
    have hsb := hs.plain (d := b) (by simp [Expr.parts])
    rw [Expr.subst_ite]
    refine .ite ((hse.typ_admits he).sort_eq_of hbool (by decide)) (fun hformula => ?_) hfit hadm
      (ihe hse) (iha hsa) (ihb hsb)
    obtain ⟨hformulaa, hformulab⟩ := hbranches hformula
    exact ⟨(hsa.typ_admits ha).sort_eq_of hformulaa (by decide),
      (hsb.typ_admits hb).sort_eq_of hformulab (by decide)⟩
  | @cases Λ i e arms dt ts d τ τe hd hvalue hne hpatterns hbinds hfit hadm he harms ihe iharms =>
    have hse := hs.plain (d := e) (by simp [Expr.parts])
    obtain ⟨ts', hvalue'⟩ : ∃ ts', (e.subst s).typ = .datatype dt ts' := by
      have := hse.typ_admits he
      rwa [hvalue] at this
    have harm (p) (hp : p ∈ arms) := hs.rebind (d := p.1.2) p.1.2 []
      (hbinds p hp) List.mem_cons_self (List.mem_cons_of_mem _ (List.mem_map.2
        ⟨p.1, List.mem_map_of_mem hp, rfl⟩))
    have hmap : (arms.map (·.1)).map (Expr.substArm s) =
        (arms.map fun p => (Expr.substArm s p.1, p.2)).map (·.1) := by simp
    rw [Expr.subst_cases, hmap]
    refine .cases (hS.context ▸ hd) hvalue' (by simpa using hne)
      (List.forall_mem_map.2 fun p hp => ?_)
      (List.forall_mem_map.2 fun p hp => (hbinds p hp).rebind hS s p.1.2 [])
      (List.forall_mem_map.2 hfit) hadm (ihe hse)
      (List.forall_mem_map.2 fun p hp => iharms p hp (harm p hp))
    obtain ⟨ctor, hctor, hfields⟩ := hpatterns p hp
    exact ⟨ctor, hctor, forall₂_fits_rebind (s.length_enter ..) hfields⟩
  | @call Λ i f r ps callee τ hf hthis hrecv hargs haccepts htyp hadm hr hps ihr ihps =>
    have hsr : ∀ p ∈ r, Fills S s this Λ this' Λ' p.1 := by
      rintro p rfl
      exact hs.plain (by simp [Expr.parts])
    have hsp : ∀ p ∈ ps, Fills S s this Λ this' Λ' p.1 := fun p hp =>
      hs.plain (List.mem_map_of_mem (f := (([], ·) : Expr → _)) (List.mem_append_right _
        (List.mem_map_of_mem (f := (·.1)) hp)))
    obtain ⟨σ, hargs⟩ := hargs
    rw [Expr.subst_call, option_map_subst_fst, map_subst_fst]
    refine .call (hS.context ▸ hf)
      (fun howner hnone => hS.implicit.trans (hthis howner (Option.map_eq_none_iff.1 hnone)))
      (forall_mem_option_refill fun p hp =>
        ((hsr p hp).typ_admits (hr p hp)).sort_eq_of (hrecv p hp) (by decide))
      ⟨σ, List.forall₂_map_left_iff.2 (List.forall₂_map_left_iff.2 ?_)⟩ ?_ htyp hadm
      (forall_mem_option_refill fun p hp => ihr p hp (hsr p hp))
      (forall_mem_refill fun p hp => ihps p hp (hsp p hp))
    · refine forall₂_imp_of_mem (List.forall₂_map_left_iff.1 hargs) fun p hp q hq =>
        ⟨hq.1.trans ((hsp p hp).typ_admits (hps p hp)), ?_, hq.2.2⟩
      exact (ihps p hp (hsp p hp)).admits
    · have htyps : (ps.map s.refill).map (·.1.typIn Λ') = ps.map (·.1.typIn Λ) := by
        rw [List.map_map]
        refine List.map_congr_left fun p hp => ?_
        exact (Expr.typIn_of_plain (Locals.plain_of_none hs.formals)).trans
          ((hsp p hp).typ_eq (hps p hp))
      rw [htyps, hS.accepts]
      exact haccepts

/-- What has a type has it wherever its free variables have theirs. -/
theorem HasType.supplies (hS : S₀.Renames S) (hΛ : Λ.Plain) (h : HasType S₀ this Λ e τ) :
    Supplies S this Λ e τ := by
  intro Λ' hΛ' hagree
  have hfills : Fills S {} this Λ this Λ' e :=
    { formals := hΛ'
      own := .inr rfl
      receiver := fun _ _ hτ => ⟨hτ, hΛ.receiver⟩
      var := fun x hx t ht τ hτ => ⟨(hagree x hx).2.trans hτ, hΛ.argument x, t,
        (hagree x hx).1.trans ht, rfl, .refl t⟩ }
  exact Expr.subst_empty e ▸ h.subst hS hfills

/-! ## Formals -/

/-- The formals of a declaration, for arguments with some annotations and types, and a receiver with
an annotation. -/
def Locals.ofFormals (params : List Binder) (us : List (Typ × Typ)) (receiver : Option Typ) :
    Locals where
  formals := some ⟨receiver, Typing.bind ((params.map (·.1)).zip (us.map (·.1))) fun _ => none⟩
  annotated := Typing.bind params fun _ => none
  actual := Typing.bind ((params.map (·.1)).zip (us.map (·.2))) fun _ => none

/-- A condition of a declaration, which is one in every instance in which the arguments have
annotations that are accepted. -/
structure Expr.IsGeneric (S : Conventions) (accepts : List Typ → Prop) (owner : Option Path)
    (params : List Binder) (e : Expr) : Prop where
  bool : e.typ.sort = .bool
  typed : ∀ (us : List (Typ × Typ)) (receiver this : Option Typ), accepts (us.map (·.1)) →
    Passes us params → (∀ u ∈ receiver, u.sort = Prelude.refSort) →
    this.isSome = owner.isSome → (∀ τ ∈ this, τ.sort = Prelude.refSort) →
    HasType S this (.ofFormals params us receiver) e .bool

theorem Subst.lookup_foldl_lastIndex (bs acc : List (String × Expr)) (x : String) :
    (bs.foldl Subst.bind acc).lookup x = match lastIndex (bs.map (·.1)) x with
      | some n => bs[n]?.map (·.2)
      | none => acc.lookup x := by
  induction bs generalizing acc with
  | nil => rfl
  | cons b bs ih =>
    rw [List.foldl_cons, ih, List.map_cons, lastIndex, Subst.lookup_bind]
    cases hn : lastIndex (bs.map (·.1)) x with
    | some n => simp
    | none =>
      by_cases hx : b.1 = x
      · simp [hx]
      · simp [hx, Ne.symm hx]

/-- What is known of a formal is at its place. -/
theorem Locals.ofFormals_lastIndex {params : List Binder} {us : List (Typ × Typ)}
    (hlen : us.length = params.length) (receiver : Option Typ) {x : String} {n : Nat}
    (hn : lastIndex (params.map (·.1)) x = some n) :
    (ofFormals params us receiver).annotated x = params[n]?.map (·.2) ∧
      (ofFormals params us receiver).actual x = us[n]?.map (·.2) ∧
      (ofFormals params us receiver).argument? x = us[n]?.map (·.1) := by
  have hzip (ts : List Typ) (hts : ts.length = us.length) :
      Typing.bind ((params.map (·.1)).zip ts) (fun _ => none) x = ts[n]? := by
    rw [Typing.bind_lastIndex, List.map_fst_zip (by simp [hts, hlen]), hn]
    show (((params.map (·.1)).zip ts).map (·.2))[n]? = _
    rw [List.map_snd_zip (by simp [hts, hlen])]
  refine ⟨?_, (hzip _ (by simp)).trans List.getElem?_map,
    (hzip _ (by simp)).trans List.getElem?_map⟩
  show Typing.bind params (fun _ => none) x = _
  rw [Typing.bind_lastIndex, hn, ← List.getElem?_map]

/-- What stands for a receiver, an expression or the receiver at hand, has its type. -/
def SuppliesReceiver (S : Conventions) (this : Option Typ) (Λ : Locals) (τ : Typ) :
    Option Expr → Prop
  | none => this = some τ
  | some r => r.typ.sort = Prelude.refSort ∧ Supplies S this Λ r τ

/-- Arguments fill the formals of what they are passed to. -/
theorem Fills.ofArguments {params : List Binder} {ps : List (Expr × Typ)} {receiver : Option Expr}
    (hΛ' : Λ'.formals = none) (hargs : Passes (argTypes ps) params)
    (hps : ∀ p ∈ ps, Supplies S this' Λ' p.1 p.2)
    (hreceiver : ∀ τ ∈ this, SuppliesReceiver S this' Λ' τ receiver) :
    Fills S (.ofBindings receiver ((params.map (·.1)).zip (ps.map (·.1)))) this
      (.ofFormals params (argTypes ps) (receiver.map Expr.typ)) this' Λ' e where
  formals := hΛ'
  own := .inl rfl
  receiver _ τ hτ := by
    have hreceiver := hreceiver τ hτ
    cases receiver with
    | none => exact ⟨hreceiver, rfl⟩
    | some r => exact ⟨hreceiver.1, rfl, hreceiver.2⟩
  var x _ t ht τ hτ := by
    obtain ⟨σ, hargs⟩ := hargs
    have hlen : (argTypes ps).length = params.length := hargs.length_eq
    have hlen' : ps.length = params.length := by simpa [argTypes] using hlen
    rw [Subst.ofBindings, Subst.lookup_foldl_lastIndex, List.map_fst_zip (by simp [hlen'])]
    cases hn : lastIndex (params.map (·.1)) x with
    | none =>
      have ht : Typing.bind params (fun _ => none) x = some t := ht
      rw [Typing.bind_lastIndex, hn] at ht
      cases ht
    | some n =>
      obtain ⟨hann, hact, harg⟩ := Locals.ofFormals_lastIndex hlen (receiver.map Expr.typ) hn
      obtain ⟨b, hb, rfl⟩ := Option.map_eq_some_iff.1 (hann.symm.trans ht)
      obtain ⟨u, hu, rfl⟩ := Option.map_eq_some_iff.1 (hact.symm.trans hτ)
      obtain ⟨b', hb', hadm, -, -⟩ := forall₂_getElem? hargs hu
      obtain rfl : b' = b := Option.some.inj (hb'.symm.trans hb)
      obtain ⟨p, hp, rfl⟩ := Option.map_eq_some_iff.1 ((List.getElem?_map ..).symm.trans hu)
      have hplace : ((params.map (·.1)).zip (ps.map (·.1)))[n]?.map (·.2) = some p.1 := by
        rw [← List.getElem?_map, List.map_snd_zip (by simp [hlen']), List.getElem?_map, hp]
        rfl
      dsimp only
      rw [hplace, harg, hu]
      exact ⟨hadm, rfl, hps p (List.mem_of_getElem? hp)⟩

/-- Calls may leave out the receiver only where there is one. -/
structure Conventions.Receives (S : Conventions) (this : Option Typ) : Prop where
  implicit : S.implicit = true → this.isSome
  ref : ∀ τ ∈ this, τ.sort = Prelude.refSort

/-- The type of the receiver in what is called. -/
def calledOn (this : Option Typ) (owner : Option Path) (r : Option (Expr × Typ)) : Option Typ :=
  if owner.isSome then r.elim this (some ·.2) else none

theorem calledOn_isSome {owner : Option Path} {r : Option (Expr × Typ)}
    (h : owner.isSome → r = none → this.isSome) :
    (calledOn this owner r).isSome = owner.isSome := by
  unfold calledOn
  cases owner with
  | none => rfl
  | some p =>
    cases r with
    | none => exact h rfl rfl
    | some q => rfl

/-- A condition of a declaration is one at the arguments of a call. -/
theorem Expr.IsGeneric.at_arguments {accepts : List Typ → Prop} {owner : Option Path}
    {params : List Binder} {r : Option (Expr × Typ)} {ps : List (Expr × Typ)} (hS : S₀.Renames S)
    (he : e.IsGeneric S₀ accepts owner params) (hthis : ∀ τ ∈ this, τ.sort = Prelude.refSort)
    (haccepts : accepts (ps.map (·.1.typ))) (hargs : Passes (argTypes ps) params)
    (hr : ∀ p ∈ r, p.1.typ.sort = Prelude.refSort ∧ p.1.typ.Admits p.2 ∧ Supplies S this Λ p.1 p.2)
    (hps : ∀ p ∈ ps, Supplies S this Λ p.1 p.2)
    (howner : owner.isSome → r = none → this.isSome) {filled : Expr}
    (hfilled : filled = e.subst (.ofBindings (if owner.isSome then r.map (·.1) else none)
      ((params.map (·.1)).zip (ps.map (·.1))))) :
    HasType S this { Λ with formals := none } filled .bool ∧ filled.typ.sort = .bool := by
  generalize hreceiver : (if owner.isSome then r.map (·.1) else none) = receiver at hfilled
  -- the receiver is the one of the call, or the one at hand
  have hcalled : ∀ τ ∈ calledOn this owner r, τ.sort = Prelude.refSort ∧
      SuppliesReceiver S this { Λ with formals := none } τ receiver := by
    intro τ hτ
    unfold calledOn at hτ
    subst hreceiver
    cases owner with
    | none => cases hτ
    | some p =>
      cases r with
      | none => exact ⟨hthis τ hτ, hτ⟩
      | some q =>
        obtain rfl : q.2 = τ := Option.some.inj hτ
        obtain ⟨href, hadm, hsupplies⟩ := hr q rfl
        exact ⟨hadm.sort_eq_of href (by decide), href, hsupplies⟩
  have href : ∀ u ∈ receiver.map Expr.typ, u.sort = Prelude.refSort := by
    intro u hu
    subst hreceiver
    cases owner with
    | none => cases hu
    | some p =>
      obtain ⟨_, hq, rfl⟩ := Option.map_eq_some_iff.1 hu
      obtain ⟨q, hq', rfl⟩ := Option.map_eq_some_iff.1 (show r.map (·.1) = some _ from hq)
      exact (hr q hq').1
  have hannotations : (argTypes ps).map (·.1) = ps.map (·.1.typ) := by simp [argTypes]
  have htyped := he.typed (argTypes ps) (receiver.map Expr.typ) (calledOn this owner r)
    (hannotations ▸ haccepts) hargs href (calledOn_isSome howner) fun τ hτ => (hcalled τ hτ).1
  have hfills : Fills S (.ofBindings receiver ((params.map (·.1)).zip (ps.map (·.1))))
      (calledOn this owner r) (.ofFormals params (argTypes ps) (receiver.map Expr.typ)) this
      { Λ with formals := none } e := .ofArguments rfl hargs hps fun τ hτ => (hcalled τ hτ).2
  subst hfilled
  exact ⟨htyped.subst hS hfills, (hfills.typ_admits htyped).sort_eq_of he.bool (by decide)⟩

end

end ContractLowering.Source
