import ContractLowering.Proofs.Source.WellTyped

/-!
# Instances of generic code

Code of a generic declaration is annotated with its type parameters, also where it is used at
arguments of other types. `HasType S this Λ e τ` says that `e` has the type `τ` in an instance,
where the annotations of `e` are only known to admit the types of the instance (`Typ.Admits`): they
may have type parameters where the instance has types.

A formal of a generic declaration stands for arguments whose annotations are those of the caller.
Where it is used its annotation may change, and with it the representation. Most uses convert what
they are given. The others have to stay as they are (`Expr.Keeps`): the value and the body of a let,
and the old value of an expression. Keys that are boxed as they come have to have the representation
that the annotation of their collection says.
-/

namespace ContractLowering.Source

/-! ## Types of instances -/

/-- A type is another one with types in place of its type parameters, each of a sort that `P` allows
for it. References are not told apart, except where arrays are asked for. -/
def Typ.Matches (P : String → IL.Srt → Prop) : Typ → Typ → Prop
  | .bool, τ => τ = .bool
  | .int, τ | .nat, τ => τ.sort = .int
  | .object, τ | .cls .., τ => τ.sort = Prelude.refSort
  | .datatype p _, τ => ∃ ts, τ = .datatype p ts
  | .array t, τ => ∃ t', τ = .array t' ∧ t.Matches P t'
  | .param x, τ => P x τ.sort
  | .set t, τ => ∃ t', τ = .set t' ∧ t.Matches P t'
  | .multiset t, τ => ∃ t', τ = .multiset t' ∧ t.Matches P t'
  | .seq t, τ => ∃ t', τ = .seq t' ∧ t.Matches P t'
  | .map k v, τ => ∃ k' v', τ = .map k' v' ∧ k.Matches P k' ∧ v.Matches P v'

/-- A value of a type may be annotated with another one, with type parameters in some places. -/
def Typ.Admits (t τ : Typ) : Prop := t.Matches (fun _ _ => True) τ

/-- The types that a type denotes when its type parameters stand for types of given sorts. -/
def Typ.Denotes (σ : String → IL.Srt) (t τ : Typ) : Prop := t.Matches (fun x s => s = σ x) τ

namespace Typ

variable {t t' u u' τ τ' : Typ}

theorem Matches.mono {P Q : String → IL.Srt → Prop} (hPQ : ∀ x s, P x s → Q x s) :
    ∀ {t τ : Typ}, t.Matches P τ → t.Matches Q τ
  | .bool, _, h | .int, _, h | .nat, _, h | .object, _, h | .cls .., _, h | .datatype .., _, h => h
  | .param _, _, h => hPQ _ _ h
  | .array _, _, ⟨t, he, h⟩ | .set _, _, ⟨t, he, h⟩ | .multiset _, _, ⟨t, he, h⟩
  | .seq _, _, ⟨t, he, h⟩ => ⟨t, he, h.mono hPQ⟩
  | .map .., _, ⟨k, v, he, hk, hv⟩ => ⟨k, v, he, hk.mono hPQ, hv.mono hPQ⟩

theorem Denotes.admits {σ : String → IL.Srt} (h : t.Denotes σ τ) : t.Admits τ :=
  Matches.mono (fun _ _ _ => trivial) h

theorem isBoxed_iff : t.isBoxed = true ↔ t.sort = Prelude.boxSort := by
  cases t with
  | param x => exact iff_of_true rfl rfl
  | _ => exact iff_of_false Bool.false_ne_true (by simp [sort, Prelude.boxSort, Prelude.refSort,
      Prelude.datatypeSort, Prelude.setSort, Prelude.multisetSort, Prelude.seqSort,
      Prelude.mapSort])

theorem isBoxed_congr (h : t.sort = τ.sort) : t.isBoxed = τ.isBoxed :=
  Bool.eq_iff_iff.2 (by rw [isBoxed_iff, isBoxed_iff, h])

theorem Admits.refl : ∀ t : Typ, t.Admits t
  | .bool | .int | .nat | .object | .cls .. => rfl
  | .datatype _ ts => ⟨ts, rfl⟩
  | .param _ => trivial
  | .array t | .set t | .multiset t | .seq t => ⟨t, rfl, refl t⟩
  | .map k v => ⟨k, v, rfl, refl k, refl v⟩

/-- What is not a type parameter admits types of its sort alone. -/
theorem Admits.sort_eq (h : t.Admits τ) (ht : t.isBoxed = false) : τ.sort = t.sort := by
  cases t with
  | param x => cases ht
  | int | nat | object | cls => exact h
  | bool => cases h; rfl
  | datatype p ts => obtain ⟨ts', rfl⟩ := h; rfl
  | array | set | multiset | seq => obtain ⟨t', rfl, -⟩ := h; rfl
  | map => obtain ⟨k', v', rfl, -⟩ := h; rfl

theorem Admits.sort_eq_of {s : IL.Srt} (h : t.Admits τ) (ht : t.sort = s)
    (hs : s ≠ Prelude.boxSort) : τ.sort = s :=
  (h.sort_eq (Bool.eq_false_iff.2 fun hb => hs (ht ▸ isBoxed_iff.1 hb))).trans ht

theorem Admits.isBoxed_eq (h : t.Admits τ) (ht : t.isBoxed = false) : τ.isBoxed = false :=
  (isBoxed_congr (h.sort_eq ht)).trans ht

theorem Admits.trans : ∀ {t u τ : Typ}, t.Admits u → u.Admits τ → t.Admits τ
  | .bool, _, _, rfl, h => h
  | .int, _, _, hu, h => h.sort_eq_of hu (by decide)
  | .nat, _, _, hu, h => h.sort_eq_of hu (by decide)
  | .object, _, _, hu, h => h.sort_eq_of hu (by decide)
  | .cls .., _, _, hu, h => h.sort_eq_of hu (by decide)
  | .datatype .., _, _, ⟨_, rfl⟩, h => h
  | .param _, _, _, _, _ => trivial
  | .array _, _, _, ⟨_, rfl, hu⟩, ⟨t, he, h⟩ => ⟨t, he, Admits.trans hu h⟩
  | .set _, _, _, ⟨_, rfl, hu⟩, ⟨t, he, h⟩ => ⟨t, he, Admits.trans hu h⟩
  | .multiset _, _, _, ⟨_, rfl, hu⟩, ⟨t, he, h⟩ => ⟨t, he, Admits.trans hu h⟩
  | .seq _, _, _, ⟨_, rfl, hu⟩, ⟨t, he, h⟩ => ⟨t, he, Admits.trans hu h⟩
  | .map .., _, _, ⟨_, _, rfl, hk, hv⟩, ⟨k, v, he, hk', hv'⟩ =>
    ⟨k, v, he, Admits.trans hk hk', Admits.trans hv hv'⟩

/-- Annotations fit if the types of the instance do. -/
theorem Admits.fits (h : t.Admits τ) (h' : t'.Admits τ') (hfit : τ.Fits τ') : t.Fits t' := by
  by_cases hbox : t.isBoxed = t'.isBoxed
  · cases ht : t.isBoxed with
    | true =>
      rw [ht] at hbox
      exact .inl ((isBoxed_iff.1 ht).trans (isBoxed_iff.1 hbox.symm).symm)
    | false =>
      -- both are native, and so are the types of the instance
      have ht' : t'.isBoxed = false := hbox ▸ ht
      rcases hfit with hfit | hfit
      · exact .inl ((h.sort_eq ht).symm.trans (hfit.trans (h'.sort_eq ht')))
      · exact absurd ((h.isBoxed_eq ht).trans (h'.isBoxed_eq ht').symm) hfit
  · exact .inr hbox

end Typ

/-! ## Other annotations -/

namespace Typ

variable {a a' b b' i value value' τ τa τb τv key : Typ}

theorem Admits.of_class (ht : a.sort = Prelude.refSort) (hcls : a.Admits .object)
    (hτ : τ.sort = Prelude.refSort) : a.Admits τ := by
  cases a with
  | object | cls => exact hτ
  | array => obtain ⟨t, ht, -⟩ := hcls; cases ht
  | _ => simp [sort, Prelude.boxSort, Prelude.refSort, Prelude.datatypeSort, Prelude.setSort,
      Prelude.multisetSort, Prelude.seqSort, Prelude.mapSort] at ht

theorem member?_of_ref (ha : a.sort = Prelude.refSort) : a.member? = none := by
  cases a with
  | set | multiset | seq | map => simp [sort, Prelude.refSort, Prelude.setSort,
      Prelude.multisetSort, Prelude.seqSort, Prelude.mapSort] at ha
  | _ => rfl

theorem Admits.isSliced (h : a.Admits a') (ha : a.IsSliced) : a'.IsSliced := by
  cases a with
  | seq | array => obtain ⟨t, rfl, -⟩ := h; trivial
  | _ => cases ha

theorem Admits.isCollection (h : a.Admits a') (ha : a.isCollection = true) :
    a'.isCollection = true := by
  cases a with
  | set | multiset | seq => obtain ⟨t, rfl, -⟩ := h; rfl
  | _ => cases ha

theorem Admits.isFrame (h : a.Admits a') (ha : a.IsFrame) : a'.IsFrame :=
  ha.imp (fun hsort => h.sort_eq_of hsort (by decide)) h.isCollection

theorem Admits.member? (h : a.Admits a') (ha : a.member? = some key) :
    ∃ key', a'.member? = some key' ∧ key.Admits key' := by
  cases a with
  | set | multiset | seq =>
    obtain ⟨t, rfl, ht⟩ := h
    obtain rfl := Option.some.inj ha
    exact ⟨t, rfl, ht⟩
  | map =>
    obtain ⟨k, v, rfl, hk, -⟩ := h
    obtain rfl := Option.some.inj ha
    exact ⟨k, rfl, hk⟩
  | _ => cases ha

/-- Indexing fits other annotations, if the key of a multiset is one of them. -/
theorem Indexes.admits (h : a.Indexes b i) (ha : a.Admits a') (hb : b.Admits b')
    (hactual : τa.Indexes τb τ) (ha' : a'.Admits τa) (hb' : b'.Admits τb) (hi : i.Admits τ)
    (hkey : ∀ key, a' = .multiset key → b'.sort = key.sort) : a'.Indexes b' i := by
  cases a with
  | seq | array =>
    obtain ⟨t, rfl, -⟩ := ha
    obtain ⟨t', rfl, ht⟩ := ha'
    exact ⟨hb.sort_eq_of h.1 (by decide), Admits.fits ht hi hactual.2⟩
  | map =>
    obtain ⟨k, v, rfl, -, -⟩ := ha
    obtain ⟨k', v', rfl, hk, hv⟩ := ha'
    exact ⟨Admits.fits hb' hk hactual.1, Admits.fits hv hi hactual.2⟩
  | multiset key =>
    obtain ⟨t, rfl, -⟩ := ha
    exact ⟨hkey t rfl, h.2⟩
  | _ => cases h

/-- Updating fits other annotations, if the key of a map is one of them. -/
theorem Updates.admits (h : a.Updates b value) (ha : a.Admits a') (hb : b.Admits b')
    (hactual : τa.Updates τb τv) (ha' : a'.Admits τa) (hv' : value'.Admits τv)
    (hkey : ∀ key mapped, a' = .map key mapped → b'.sort = key.sort) : a'.Updates b' value' := by
  cases a with
  | seq =>
    obtain ⟨t, rfl, -⟩ := ha
    obtain ⟨t', rfl, ht⟩ := ha'
    exact ⟨hb.sort_eq_of h.1 (by decide), Admits.fits hv' ht hactual.2⟩
  | map key mapped =>
    obtain ⟨k, v, rfl, -, -⟩ := ha
    obtain ⟨k', v', rfl, -, hv⟩ := ha'
    exact ⟨hkey k v rfl, Admits.fits hv' hv hactual.2⟩
  | _ => cases h

end Typ

theorem UnOp.Accepts.admits {op : UnOp} {t t' result : Typ} (h : op.Accepts t result)
    (ht : t.Admits t') : op.Accepts t' result := by
  cases op with
  | not | neg => exact ⟨ht.sort_eq_of h.1 (by decide), h.2⟩
  | card =>
    obtain ⟨key, hkey⟩ := Option.isSome_iff_exists.1 h.1
    obtain ⟨key', hkey', -⟩ := ht.member? hkey
    exact ⟨Option.isSome_iff_exists.2 ⟨key', hkey'⟩, h.2⟩

/-- An arithmetic type has a sort of its own. -/
theorem BinOp.IsArith.isBoxed {op : BinOp} {t : Typ} (h : op.IsArith t) : t.isBoxed = false := by
  cases t with
  | param => cases h
  | _ => rfl

theorem BinOp.IsArith.admits {op : BinOp} {t t' : Typ} (h : op.IsArith t) (ht : t.Admits t') :
    op.IsArith t' := by
  cases t with
  | int | nat =>
    have hsort : t'.sort = .int := ht
    cases t' <;> trivial
  | set | multiset => obtain ⟨u, rfl, -⟩ := ht; trivial
  | seq => obtain ⟨u, rfl, -⟩ := ht; exact h
  | _ => cases h

/-- An operator accepts other annotations. -/
theorem BinOp.Accepts.admits {op : BinOp} {t₁ t₂ u₁ u₂ τ₁ τ₂ τ result : Typ}
    (h : op.Accepts t₁ t₂ result) (h₁ : t₁.Admits u₁) (h₂ : t₂.Admits u₂)
    (hactual : op.Accepts τ₁ τ₂ τ) (h₁' : u₁.Admits τ₁) (h₂' : u₂.Admits τ₂) :
    op.Accepts u₁ u₂ result := by
  -- operands that are no boxes keep their sorts
  have hsorts (hbox : t₁.isBoxed = false) (hsort : t₂.sort = t₁.sort) : u₂.sort = u₁.sort :=
    (h₂.sort_eq ((Typ.isBoxed_congr hsort).trans hbox)).trans (hsort.trans (h₁.sort_eq hbox).symm)
  have hmem (hmember : ∃ elem, t₂.member? = some elem ∧ t₁.Fits elem)
      (hactual : ∃ elem, τ₂.member? = some elem ∧ τ₁.Fits elem) :
      ∃ elem, u₂.member? = some elem ∧ u₁.Fits elem := by
    obtain ⟨elem, helem, -⟩ := hmember
    obtain ⟨key, hkey, -⟩ := h₂.member? helem
    obtain ⟨key', hkey', hadm⟩ := h₂'.member? hkey
    obtain ⟨elem', helem', hfit⟩ := hactual
    obtain rfl := Option.some.inj (hkey'.symm.trans helem')
    exact ⟨key, hkey, Typ.Admits.fits h₁' hadm hfit⟩
  cases op with
  | and | or | implies | iff | div | mod =>
    exact ⟨h₁.sort_eq_of h.1 (by decide), h₂.sort_eq_of h.2.1 (by decide), h.2.2⟩
  | eq | ne => exact ⟨Typ.Admits.fits h₂' h₁' hactual.1, h.2⟩
  | lt | le | gt | ge =>
    obtain ⟨hkind, hsort, hresult⟩ := h
    rcases hkind with hcoll | hint
    · refine ⟨.inl (h₁.isCollection hcoll), hsorts ?_ hsort, hresult⟩
      cases t₁ <;> first | rfl | cases hcoll
    · refine ⟨.inr (h₁.sort_eq_of hint (by decide)), hsorts ?_ hsort, hresult⟩
      cases t₁ <;> first | rfl | cases hint
  | add | sub | mul =>
    obtain ⟨harith, hsort, hresult⟩ := h
    exact ⟨harith.admits h₁, hsorts harith.isBoxed hsort,
      hresult.trans (h₁.sort_eq harith.isBoxed).symm⟩
  | mem | notMem => exact ⟨hmem h.1 hactual.1, h.2⟩
  | disjoint =>
    obtain ⟨⟨elem, hkind⟩, hsort, hresult⟩ := h
    have hbox : t₁.isBoxed = false := by rcases hkind with rfl | rfl <;> rfl
    refine ⟨?_, hsorts hbox hsort, hresult⟩
    rcases hkind with rfl | rfl
    · obtain ⟨u, rfl, -⟩ := h₁
      exact ⟨u, .inl rfl⟩
    · obtain ⟨u, rfl, -⟩ := h₁
      exact ⟨u, .inr rfl⟩

/-! ## Expressions -/

/-- What is declared, which names may be bound, whether calls may leave out the receiver, and the
annotations of the arguments that each predicate is called with. -/
structure Conventions where
  context : Context
  mayBind : String → Prop
  implicit : Bool
  accepts : Path → List Typ → Prop

/-- The annotations of what replaces the receiver and the formals of a declaration. -/
structure Replacement where
  receiver : Option Typ
  arguments : Typing

/-- The variables in scope, with the types they are annotated with and those they have. Code as it
is declared may have formals. Where these have been replaced there are none. -/
structure Locals where
  formals : Option Replacement
  annotated : Typing
  actual : Typing

namespace Locals

/-- The annotation of the argument that replaces a formal. -/
def argument? (Λ : Locals) (x : String) : Option Typ := Λ.formals.bind (·.arguments x)

/-- The annotation of what replaces the receiver. -/
def receiver? (Λ : Locals) : Option Typ := Λ.formals.bind (·.receiver)

/-- Nothing is to be replaced. -/
structure Plain (Λ : Locals) : Prop where
  argument : ∀ x, Λ.argument? x = none
  receiver : Λ.receiver? = none

/-- Variables bound to values of some types, by binders with their annotations. -/
def bind (Λ : Locals) (bs : List Binder) (τs : List Typ) : Locals where
  formals := Λ.formals.map fun F =>
    { F with arguments := fun x => if x ∈ bs.map (·.1) then none else F.arguments x }
  annotated := Λ.annotated.bind bs
  actual := Λ.actual.bind ((bs.map (·.1)).zip τs)

variable {Λ : Locals} {bs : List Binder} {τs : List Typ} {x : String}

theorem argument?_bind_of_mem (hx : x ∈ bs.map (·.1)) : (Λ.bind bs τs).argument? x = none := by
  cases h : Λ.formals <;> simp [argument?, bind, h, hx]

theorem argument?_bind_of_notMem (hx : x ∉ bs.map (·.1)) :
    (Λ.bind bs τs).argument? x = Λ.argument? x := by
  cases h : Λ.formals <;> simp [argument?, bind, h, hx]

theorem receiver?_bind : (Λ.bind bs τs).receiver? = Λ.receiver? := by
  cases h : Λ.formals <;> simp [receiver?, bind, h]

theorem Plain.bind (h : Λ.Plain) : (Λ.bind bs τs).Plain where
  argument x := by
    by_cases hx : x ∈ bs.map (·.1)
    · exact argument?_bind_of_mem hx
    · exact (argument?_bind_of_notMem hx).trans (h.argument x)
  receiver := receiver?_bind.trans h.receiver

theorem plain_of_none (h : Λ.formals = none) : Λ.Plain :=
  ⟨fun x => by simp [argument?, h], by simp [receiver?, h]⟩

end Locals

/-- The annotation of an expression once the receiver and the formals have been replaced. -/
def Expr.typIn (Λ : Locals) : Expr → Typ
  | .var i x => (Λ.argument? x).getD i.typ
  | .this i => Λ.receiver?.getD i.typ
  | e => e.typ

theorem Expr.typIn_of_plain {Λ : Locals} {e : Expr} (h : Λ.Plain) : e.typIn Λ = e.typ := by
  cases e <;> simp [typIn, Expr.typ, Expr.info, h.argument, h.receiver]

/-- An expression keeps its representation when arguments replace formals. -/
def Expr.Keeps (Λ : Locals) (e : Expr) : Prop := (e.typIn Λ).sort = e.typ.sort

theorem Expr.keeps_of_plain {Λ : Locals} {e : Expr} (h : Λ.Plain) : e.Keeps Λ :=
  congrArg Typ.sort (typIn_of_plain h)

/-- Distinct variables that may be bound, with types that their annotations admit. -/
structure Binds (S : Conventions) (bs : List Binder) (τs : List Typ) : Prop where
  nodup : (bs.map (·.1)).Nodup
  name : ∀ b ∈ bs, S.mayBind b.1
  admits : List.Forall₂ (fun b τ => b.2.Admits τ) bs τs

/-- Arguments of a call are given by their annotations and their types, which the parameters admit
for one choice of sorts for type parameters. -/
def Passes (us : List (Typ × Typ)) (params : List Binder) : Prop :=
  ∃ σ : String → IL.Srt,
    List.Forall₂ (fun u b => b.2.Admits u.1 ∧ u.1.Admits u.2 ∧ b.2.Denotes σ u.2) us params

/-- The annotations and the types of arguments. -/
def argTypes (ps : List (Expr × Typ)) : List (Typ × Typ) := ps.map fun p => (p.1.typ, p.2)

/-- Expressions in an instance of generic code, each with its type there. Lists of expressions are
given with their types. -/
inductive HasType (S : Conventions) (this : Option Typ) : Locals → Expr → Typ → Prop where
  | bool {Λ : Locals} {i : Info} {b : Bool} {τ : Typ} (htyp : i.typ.sort = .bool)
      (hadm : i.typ.Admits τ) : HasType S this Λ (.bool i b) τ
  | int {Λ : Locals} {i : Info} {n : Int} {τ : Typ} (htyp : i.typ.sort = .int)
      (hadm : i.typ.Admits τ) : HasType S this Λ (.int i n) τ
  | null {Λ : Locals} {i : Info} {τ : Typ} (htyp : i.typ.sort = Prelude.refSort)
      (hadm : i.typ.Admits τ) : HasType S this Λ (.null i) τ
  | var {Λ : Locals} {i : Info} {x : String} {t τ : Typ} (ht : Λ.annotated x = some t)
      (hsort : t.sort = i.typ.sort) (hann : i.typ.Admits t) (hown : Λ.formals.isSome → i.typ = t)
      (hτ : Λ.actual x = some τ) (hadm : i.typ.Admits τ) : HasType S this Λ (.var i x) τ
  | this {Λ : Locals} {i : Info} {τ : Typ} (hthis : this = some τ)
      (htyp : i.typ.sort = Prelude.refSort) (hcls : i.typ.Admits .object)
      (hadm : i.typ.Admits τ) : HasType S this Λ (.this i) τ
  | field {Λ : Locals} {i : Info} {e : Expr} {fid : FieldId} {f : Field} {τ τe : Typ}
      (hfield : S.context.field fid = .ok f) (hobj : e.typ.sort = Prelude.refSort)
      (htyp : f.typ.Fits i.typ) (hadm : i.typ.Admits τ) (he : HasType S this Λ e τe) :
      HasType S this Λ (.field i e fid) τ
  | index {Λ : Locals} {i : Info} {a b : Expr} {τ τa τb : Typ}
      (htyp : a.typ.Indexes b.typ i.typ) (hactual : τa.Indexes τb τ)
      (hkey : ∀ key, a.typIn Λ = .multiset key → (b.typIn Λ).sort = key.sort)
      (hadm : i.typ.Admits τ)
      (ha : HasType S this Λ a τa) (hb : HasType S this Λ b τb) :
      HasType S this Λ (.index i a b) τ
  | slice {Λ : Locals} {i : Info} {e : Expr} {lo hi : Option (Expr × Typ)} {τ τe : Typ}
      (hcoll : e.typ.IsSliced) (htyp : i.typ.sort = Prelude.seqSort)
      (hint : ∀ p, p ∈ lo ∨ p ∈ hi → p.1.typ.sort = .int) (hadm : i.typ.Admits τ)
      (he : HasType S this Λ e τe) (hlo : ∀ p ∈ lo, HasType S this Λ p.1 p.2)
      (hhi : ∀ p ∈ hi, HasType S this Λ p.1 p.2) :
      HasType S this Λ (.slice i e (lo.map (·.1)) (hi.map (·.1))) τ
  | update {Λ : Locals} {i : Info} {e k v : Expr} {τ τe τk τv : Typ}
      (hcoll : e.typ.Updates k.typ v.typ) (hactual : τe.Updates τk τv)
      (hkey : ∀ key value, e.typIn Λ = .map key value → (k.typIn Λ).sort = key.sort)
      (htyp : i.typ.sort = e.typ.sort) (hadm : i.typ.Admits τ)
      (he : HasType S this Λ e τe) (hk : HasType S this Λ k τk)
      (hv : HasType S this Λ v τv) :
      HasType S this Λ (.update i e k v) τ
  | arrayLength {Λ : Locals} {i : Info} {e : Expr} {τ τe : Typ}
      (harray : e.typ.sort = Prelude.refSort) (htyp : i.typ.sort = .int)
      (hadm : i.typ.Admits τ) (he : HasType S this Λ e τe) :
      HasType S this Λ (.arrayLength i e) τ
  | display {Λ : Locals} {i : Info} {kind : Collection} {ps : List (Expr × Typ)}
      {elem τ elem' : Typ} (hkind : kind.Displays i.typ elem) (hactual : kind.Displays τ elem')
      (hfit : ∀ p ∈ ps, p.2.Fits elem') (hadm : i.typ.Admits τ)
      (hps : ∀ p ∈ ps, HasType S this Λ p.1 p.2) :
      HasType S this Λ (.display i kind (ps.map (·.1))) τ
  | mapDisplay {Λ : Locals} {i : Info} {kvs : List ((Expr × Typ) × (Expr × Typ))}
      {key value key' value' : Typ} (htyp : i.typ = .map key value)
      (hfit : ∀ p ∈ kvs, p.1.2.Fits key' ∧ p.2.2.Fits value')
      (hadm : i.typ.Admits (.map key' value')) (hkeys : ∀ p ∈ kvs, HasType S this Λ p.1.1 p.1.2)
      (hvalues : ∀ p ∈ kvs, HasType S this Λ p.2.1 p.2.2) :
      HasType S this Λ (.mapDisplay i (kvs.map fun p => (p.1.1, p.2.1))) (.map key' value')
  | ctor {Λ : Locals} {i : Info} {dt : Path} {k : String} {ps : List (Expr × Typ)} {d : Datatype}
      {ctor : Ctor} {τ : Typ} (hd : S.context.datatype dt = .ok d) (hctor : d.ctor k = .ok ctor)
      (htyp : i.typ.sort = Prelude.datatypeSort)
      (hargs : List.Forall₂ (fun p f => p.2.Fits f.2) ps ctor.fields) (hadm : i.typ.Admits τ)
      (hps : ∀ p ∈ ps, HasType S this Λ p.1 p.2) :
      HasType S this Λ (.ctor i dt k (ps.map (·.1))) τ
  | destruct {Λ : Locals} {i : Info} {e : Expr} {dt : Path} {k f : String} {d : Datatype}
      {ctor : Ctor} {b : Binder} {τ τe : Typ} (hd : S.context.datatype dt = .ok d)
      (hctor : d.ctor k = .ok ctor) (hfield : ctor.field f = .ok b)
      (hvalue : e.typ.sort = Prelude.datatypeSort) (htyp : b.2.Fits i.typ) (hadm : i.typ.Admits τ)
      (he : HasType S this Λ e τe) :
      HasType S this Λ (.destruct i e dt k f) τ
  | isCtor {Λ : Locals} {i : Info} {e : Expr} {dt : Path} {k : String} {d : Datatype} {ctor : Ctor}
      {τ τe : Typ} (hd : S.context.datatype dt = .ok d) (hctor : d.ctor k = .ok ctor)
      (hvalue : e.typ.sort = Prelude.datatypeSort) (htyp : i.typ.sort = .bool)
      (hadm : i.typ.Admits τ) (he : HasType S this Λ e τe) :
      HasType S this Λ (.isCtor i e dt k) τ
  | old {Λ : Locals} {i : Info} {e : Expr} {τ : Typ} (htyp : i.typ.sort = e.typ.sort)
      (hkeep : e.Keeps Λ) (hadm : i.typ.Admits τ) (he : HasType S this Λ e τ) :
      HasType S this Λ (.old i e) τ
  | fresh {Λ : Locals} {i : Info} {e : Expr} {τ τe : Typ} (hframe : e.typ.IsFrame)
      (htyp : i.typ.sort = .bool) (hadm : i.typ.Admits τ) (he : HasType S this Λ e τe) :
      HasType S this Λ (.fresh i e) τ
  | unary {Λ : Locals} {i : Info} {op : UnOp} {e : Expr} {τ τe : Typ}
      (htyp : op.Accepts e.typ i.typ) (hadm : i.typ.Admits τ) (he : HasType S this Λ e τe) :
      HasType S this Λ (.unary i op e) τ
  | binary {Λ : Locals} {i : Info} {op : BinOp} {a b : Expr} {τ τa τb : Typ}
      (htyp : op.Accepts a.typ b.typ i.typ) (hactual : op.Accepts τa τb τ) (hadm : i.typ.Admits τ)
      (ha : HasType S this Λ a τa) (hb : HasType S this Λ b τb) :
      HasType S this Λ (.binary i op a b) τ
  | quant {Λ : Locals} {i : Info} {q : Quantifier} {bs : List Binder} {τs : List Typ}
      {r : Option (Expr × Typ)} {e : Expr} {ts : List (List (Expr × Typ))} {ind : Induction}
      {τ τe : Typ} (hbinds : Binds S bs τs) (hbs : ∀ b ∈ bs, b.2.Resolved S.context)
      (htyp : i.typ.sort = .bool) (hbool : e.typ.sort = .bool ∧ ∀ p ∈ r, p.1.typ.sort = .bool)
      (hadm : i.typ.Admits τ) (hr : ∀ p ∈ r, HasType S this (Λ.bind bs τs) p.1 p.2)
      (he : HasType S this (Λ.bind bs τs) e τe)
      (hts : ∀ t ∈ ts, ∀ p ∈ t, HasType S this (Λ.bind bs τs) p.1 p.2) :
      HasType S this Λ (.quant i q bs (r.map (·.1)) e (ts.map (·.map (·.1))) ind) τ
  | setComp {Λ : Locals} {i : Info} {bs : List Binder} {τs : List Typ} {r : Expr}
      {t : Option (Expr × Typ)} {elem elem' τr : Typ} (hbinds : Binds S bs τs)
      (hbs : ∀ b ∈ bs, b.2.Resolved S.context) (htyp : i.typ = .set elem)
      (hbool : r.typ.sort = .bool)
      (hterm : t = none → ∃ b τ, bs = [b] ∧ τs = [τ] ∧ τ.Fits elem')
      (helem : ∀ p ∈ t, p.2.Fits elem') (hadm : i.typ.Admits (.set elem'))
      (hr : HasType S this (Λ.bind bs τs) r τr)
      (ht : ∀ p ∈ t, HasType S this (Λ.bind bs τs) p.1 p.2) :
      HasType S this Λ (.setComp i bs r (t.map (·.1))) (.set elem')
  | mapComp {Λ : Locals} {i : Info} {b : Binder} {τb : Typ} {r t : Expr}
      {key value key' value' τr τt : Typ} (hbinds : Binds S [b] [τb]) (hb : b.2.Resolved S.context)
      (htyp : i.typ = .map key value) (hbool : r.typ.sort = .bool) (hvalue : τt.Fits value')
      (hadm : i.typ.Admits (.map key' value')) (hr : HasType S this (Λ.bind [b] [τb]) r τr)
      (ht : HasType S this (Λ.bind [b] [τb]) t τt) :
      HasType S this Λ (.mapComp i b r t) (.map key' value')
  | letIn {Λ : Locals} {i : Info} {bs : List (String × (Expr × Typ))} {e : Expr} {τ : Typ}
      (hnodup : (bs.map (·.1)).Nodup) (hnames : ∀ b ∈ bs, S.mayBind b.1)
      (hkeep : ∀ b ∈ bs, b.2.1.Keeps Λ) (htyp : i.typ.sort = e.typ.sort)
      (hbody : e.Keeps (Λ.bind (bs.map fun b => (b.1, b.2.1.typ)) (bs.map (·.2.2))))
      (hadm : i.typ.Admits τ) (hbs : ∀ b ∈ bs, HasType S this Λ b.2.1 b.2.2)
      (he : HasType S this (Λ.bind (bs.map fun b => (b.1, b.2.1.typ)) (bs.map (·.2.2))) e τ) :
      HasType S this Λ (.letIn i (bs.map fun b => (b.1, b.2.1)) e) τ
  | ite {Λ : Locals} {i : Info} {e a b : Expr} {τ τe τa τb : Typ} (hbool : e.typ.sort = .bool)
      (hbranches : i.typ.sort = .bool → a.typ.sort = .bool ∧ b.typ.sort = .bool)
      (hfit : τa.Fits τ ∧ τb.Fits τ) (hadm : i.typ.Admits τ) (he : HasType S this Λ e τe)
      (ha : HasType S this Λ a τa) (hb : HasType S this Λ b τb) :
      HasType S this Λ (.ite i e a b) τ
  | cases {Λ : Locals} {i : Info} {e : Expr} {arms : List ((Pattern × Expr) × (List Typ × Typ))}
      {dt : Path} {ts : List Typ} {d : Datatype} {τ τe : Typ} (hd : S.context.datatype dt = .ok d)
      (hvalue : e.typ = .datatype dt ts) (hne : arms ≠ [])
      (hpatterns : ∀ p ∈ arms, ∃ ctor, d.ctor p.1.1.ctor = .ok ctor ∧
        List.Forall₂ (fun b f => f.2.Fits b.2) p.1.1.binders ctor.fields)
      (hbinds : ∀ p ∈ arms, Binds S p.1.1.binders p.2.1) (hfit : ∀ p ∈ arms, p.2.2.Fits τ)
      (hadm : i.typ.Admits τ) (he : HasType S this Λ e τe)
      (harms : ∀ p ∈ arms, HasType S this (Λ.bind p.1.1.binders p.2.1) p.1.2 p.2.2) :
      HasType S this Λ (.cases i e (arms.map (·.1))) τ
  | call {Λ : Locals} {i : Info} {f : Path} {r : Option (Expr × Typ)} {ps : List (Expr × Typ)}
      {callee : Function} {τ : Typ} (hf : S.context.function f = .ok callee)
      (hthis : callee.owner.isSome → r = none → S.implicit = true)
      (hrecv : ∀ p ∈ r, p.1.typ.sort = Prelude.refSort)
      (hargs : Passes (argTypes ps) callee.params)
      (haccepts : S.accepts f (ps.map (·.1.typIn Λ)))
      (htyp : callee.result.2.Fits i.typ) (hadm : i.typ.Admits τ)
      (hr : ∀ p ∈ r, HasType S this Λ p.1 p.2) (hps : ∀ p ∈ ps, HasType S this Λ p.1 p.2) :
      HasType S this Λ (.call i f (r.map (·.1)) (ps.map (·.1))) τ

namespace HasType

variable {S : Conventions} {this : Option Typ} {Λ : Locals} {e : Expr} {τ : Typ}

/-- An annotation admits the type. -/
theorem admits (h : HasType S this Λ e τ) : e.typ.Admits τ := by
  cases h <;> assumption

end HasType

end ContractLowering.Source
