import ContractLowering.Context
import ContractLowering.Lowering.Expr
import ContractLowering.Proofs.Source.Scoped
import Mathlib.Data.List.Forall2

/-!
# Well-typed expressions

`WellTyped c D hasThis Γ e` says that the expression `e` is resolved against the declarations of `c`
and that its types fit, with the variables of `Γ` in scope and the receiver in scope if `hasThis` is
true. Types are compared as far as lowering tells them apart: a value may stand where another type
is expected if both have one sort, or if exactly one of them is a type parameter (`Typ.Fits`).

A `Discipline` says what more is asked of the names that expressions bind and of arguments that
meet parameters. `Discipline.free` asks for nothing.
-/

namespace ContractLowering.Source

/-! ## Types -/

/-- A value of one type may stand where another one is expected. -/
def Typ.Fits (source target : Typ) : Prop :=
  source.sort = target.sort ∨ source.isBoxed ≠ target.isBoxed

/-- Datatypes of values, elements and keys are declared. -/
def Typ.Resolved (c : Context) : Typ → Prop
  | .datatype p _ => ∃ d, c.datatype p = .ok d
  | .set t | .multiset t | .seq t => t.Resolved c
  | .map k v => k.Resolved c ∧ v.Resolved c
  | _ => True

/-- The type of what is a member of a collection. -/
def Typ.member? : Typ → Option Typ
  | .set t | .multiset t | .seq t => some t
  | .map k _ => some k
  | _ => none

/-- Whether frames may list values of the type: objects or collections of objects. -/
def Typ.IsFrame (t : Typ) : Prop := t.sort = Prelude.refSort ∨ t.isCollection = true

/-- The types that a display may have, with the type of its elements. -/
def Collection.Displays : Collection → Typ → Typ → Prop
  | .set, t, elem => t = .set elem
  | .multiset, t, elem => t = .multiset elem
  | .seq, t, elem => t = .seq elem

/-- The types of the operand and of the value of an operator. -/
def UnOp.Accepts (op : UnOp) (t result : Typ) : Prop :=
  match op with
  | .not => t.sort = .bool ∧ result.sort = .bool
  | .neg => t.sort = .int ∧ result.sort = .int
  | .card => t.member?.isSome ∧ result.sort = .int

/-- Whether there are sums, differences or products of values of a type. -/
def BinOp.IsArith (op : BinOp) (t : Typ) : Prop :=
  match t with
  | .int | .nat | .set _ | .multiset _ => True
  | .seq _ => op = .add
  | _ => False

/-- The types of the operands and of the value of an operator. -/
def BinOp.Accepts (op : BinOp) (t₁ t₂ result : Typ) : Prop :=
  match op with
  | .and | .or | .implies | .iff => t₁.sort = .bool ∧ t₂.sort = .bool ∧ result.sort = .bool
  | .eq | .ne => t₂.Fits t₁ ∧ result.sort = .bool
  | .lt | .le | .gt | .ge =>
    (t₁.isCollection = true ∨ t₁.sort = .int) ∧ t₂.sort = t₁.sort ∧ result.sort = .bool
  | .add | .sub | .mul => op.IsArith t₁ ∧ t₂.sort = t₁.sort ∧ result.sort = t₁.sort
  | .div | .mod => t₁.sort = .int ∧ t₂.sort = .int ∧ result.sort = .int
  | .mem | .notMem => (∃ elem, t₂.member? = some elem ∧ t₁.Fits elem) ∧ result.sort = .bool
  | .disjoint =>
    (∃ elem, t₁ = .set elem ∨ t₁ = .multiset elem) ∧ t₂.sort = t₁.sort ∧ result.sort = .bool

/-- The types of a collection, an index or key, and the element there. -/
def Typ.Indexes (coll idx result : Typ) : Prop :=
  match coll with
  | .seq elem | .array elem => idx.sort = .int ∧ elem.Fits result
  | .map key value => idx.Fits key ∧ value.Fits result
  | .multiset elem => idx.sort = elem.sort ∧ result.sort = .int
  | _ => False

/-- The types of a collection, an index or key, and what is put there. -/
def Typ.Updates (coll idx value : Typ) : Prop :=
  match coll with
  | .seq elem => idx.sort = .int ∧ value.Fits elem
  | .map key mapped => idx.sort = key.sort ∧ value.Fits mapped
  | _ => False

/-- Whether there are slices of values of a type. -/
def Typ.IsSliced : Typ → Prop
  | .seq _ | .array _ => True
  | _ => False

/-- Distinct variables have their types where they are bound. -/
theorem Typing.bind_of_nodup {bs : List Binder} {Γ : Typing} (h : (bs.map (·.1)).Nodup) {b : Binder}
    (hb : b ∈ bs) : Γ.bind bs b.1 = some b.2 := by
  induction bs generalizing Γ with
  | nil => cases hb
  | cons c bs ih =>
    obtain ⟨hc, hnodup⟩ := List.nodup_cons.1 h
    rw [Typing.bind_cons]
    rcases List.mem_cons.1 hb with rfl | hb
    · rw [Typing.bind_of_notMem hc, Function.update_self]
    · exact ih hnodup hb

/-! ## Expressions -/

/-- What is asked of names that expressions bind, and of the type of an argument and that of its
parameter. -/
structure Discipline where
  binder : String → Prop
  argument : Typ → Typ → Prop

/-- Every name may be bound, and every argument that fits may be passed. -/
def Discipline.free : Discipline := ⟨fun _ => True, fun _ _ => True⟩

/-- Arguments that parameters or fields accept, one for one. -/
def Discipline.Passes (D : Discipline) (args : List Expr) (params : List Binder) : Prop :=
  List.Forall₂ (fun e p => e.typ.Fits p.2 ∧ D.argument e.typ p.2) args params

/-- Expressions that are resolved and whose types fit. -/
inductive WellTyped (c : Context) (D : Discipline) (hasThis : Bool) : Typing → Expr → Prop where
  | bool {Γ : Typing} {i : Info} {b : Bool} (htyp : i.typ.sort = .bool) :
      WellTyped c D hasThis Γ (.bool i b)
  | int {Γ : Typing} {i : Info} {n : Int} (htyp : i.typ.sort = .int) :
      WellTyped c D hasThis Γ (.int i n)
  | null {Γ : Typing} {i : Info} (htyp : i.typ.sort = Prelude.refSort) :
      WellTyped c D hasThis Γ (.null i)
  | var {Γ : Typing} {i : Info} {x : String} (htyp : Γ x = some i.typ) :
      WellTyped c D hasThis Γ (.var i x)
  | this {Γ : Typing} {i : Info} (hthis : hasThis = true) (htyp : i.typ.sort = Prelude.refSort) :
      WellTyped c D hasThis Γ (.this i)
  | field {Γ : Typing} {i : Info} {e : Expr} {fid : FieldId} {f : Field}
      (hfield : c.field fid = .ok f) (hobj : e.typ.sort = Prelude.refSort)
      (htyp : f.typ.Fits i.typ) (he : WellTyped c D hasThis Γ e) :
      WellTyped c D hasThis Γ (.field i e fid)
  | index {Γ : Typing} {i : Info} {a b : Expr} (htyp : a.typ.Indexes b.typ i.typ)
      (ha : WellTyped c D hasThis Γ a) (hb : WellTyped c D hasThis Γ b) :
      WellTyped c D hasThis Γ (.index i a b)
  | slice {Γ : Typing} {i : Info} {e : Expr} {lo hi : Option Expr} (hcoll : e.typ.IsSliced)
      (htyp : i.typ.sort = Prelude.seqSort) (hint : ∀ x, x ∈ lo ∨ x ∈ hi → x.typ.sort = .int)
      (he : WellTyped c D hasThis Γ e) (hlo : ∀ x ∈ lo, WellTyped c D hasThis Γ x)
      (hhi : ∀ x ∈ hi, WellTyped c D hasThis Γ x) :
      WellTyped c D hasThis Γ (.slice i e lo hi)
  | update {Γ : Typing} {i : Info} {e k v : Expr} (hcoll : e.typ.Updates k.typ v.typ)
      (htyp : i.typ.sort = e.typ.sort) (he : WellTyped c D hasThis Γ e)
      (hk : WellTyped c D hasThis Γ k) (hv : WellTyped c D hasThis Γ v) :
      WellTyped c D hasThis Γ (.update i e k v)
  | arrayLength {Γ : Typing} {i : Info} {e : Expr} (harray : e.typ.sort = Prelude.refSort)
      (htyp : i.typ.sort = .int) (he : WellTyped c D hasThis Γ e) :
      WellTyped c D hasThis Γ (.arrayLength i e)
  | display {Γ : Typing} {i : Info} {kind : Collection} {es : List Expr} {elem : Typ}
      (hkind : kind.Displays i.typ elem) (htyp : ∀ e ∈ es, e.typ.Fits elem)
      (hes : ∀ e ∈ es, WellTyped c D hasThis Γ e) :
      WellTyped c D hasThis Γ (.display i kind es)
  | mapDisplay {Γ : Typing} {i : Info} {kvs : List (Expr × Expr)} {key value : Typ}
      (htyp : i.typ = .map key value)
      (hentries : ∀ p ∈ kvs, p.1.typ.Fits key ∧ p.2.typ.Fits value)
      (hkeys : ∀ p ∈ kvs, WellTyped c D hasThis Γ p.1)
      (hvalues : ∀ p ∈ kvs, WellTyped c D hasThis Γ p.2) :
      WellTyped c D hasThis Γ (.mapDisplay i kvs)
  | ctor {Γ : Typing} {i : Info} {dt : Path} {k : String} {es : List Expr} {d : Datatype}
      {ctor : Ctor} (hd : c.datatype dt = .ok d) (hctor : d.ctor k = .ok ctor)
      (htyp : i.typ.sort = Prelude.datatypeSort) (hargs : D.Passes es ctor.fields)
      (hes : ∀ e ∈ es, WellTyped c D hasThis Γ e) :
      WellTyped c D hasThis Γ (.ctor i dt k es)
  | destruct {Γ : Typing} {i : Info} {e : Expr} {dt : Path} {k f : String} {d : Datatype}
      {ctor : Ctor} {b : Binder} (hd : c.datatype dt = .ok d) (hctor : d.ctor k = .ok ctor)
      (hfield : ctor.field f = .ok b) (hvalue : e.typ.sort = Prelude.datatypeSort)
      (htyp : b.2.Fits i.typ) (he : WellTyped c D hasThis Γ e) :
      WellTyped c D hasThis Γ (.destruct i e dt k f)
  | isCtor {Γ : Typing} {i : Info} {e : Expr} {dt : Path} {k : String} {d : Datatype} {ctor : Ctor}
      (hd : c.datatype dt = .ok d) (hctor : d.ctor k = .ok ctor)
      (hvalue : e.typ.sort = Prelude.datatypeSort) (htyp : i.typ.sort = .bool)
      (he : WellTyped c D hasThis Γ e) :
      WellTyped c D hasThis Γ (.isCtor i e dt k)
  | old {Γ : Typing} {i : Info} {e : Expr} (htyp : i.typ.sort = e.typ.sort)
      (he : WellTyped c D hasThis Γ e) :
      WellTyped c D hasThis Γ (.old i e)
  | fresh {Γ : Typing} {i : Info} {e : Expr} (hframe : e.typ.IsFrame) (htyp : i.typ.sort = .bool)
      (he : WellTyped c D hasThis Γ e) :
      WellTyped c D hasThis Γ (.fresh i e)
  | unary {Γ : Typing} {i : Info} {op : UnOp} {e : Expr} (htyp : op.Accepts e.typ i.typ)
      (he : WellTyped c D hasThis Γ e) :
      WellTyped c D hasThis Γ (.unary i op e)
  | binary {Γ : Typing} {i : Info} {op : BinOp} {a b : Expr}
      (htyp : op.Accepts a.typ b.typ i.typ) (ha : WellTyped c D hasThis Γ a)
      (hb : WellTyped c D hasThis Γ b) :
      WellTyped c D hasThis Γ (.binary i op a b)
  | quant {Γ : Typing} {i : Info} {q : Quantifier} {bs : List Binder} {r : Option Expr} {e : Expr}
      {ts : List (List Expr)} {ind : Induction} (hnodup : (bs.map (·.1)).Nodup)
      (hbs : ∀ b ∈ bs, D.binder b.1 ∧ b.2.Resolved c) (htyp : i.typ.sort = .bool)
      (hbool : ∀ x, x ∈ r ∨ x = e → x.typ.sort = .bool)
      (hr : ∀ x ∈ r, WellTyped c D hasThis (Γ.bind bs) x) (he : WellTyped c D hasThis (Γ.bind bs) e)
      (hts : ∀ t ∈ ts, ∀ x ∈ t, WellTyped c D hasThis (Γ.bind bs) x) :
      WellTyped c D hasThis Γ (.quant i q bs r e ts ind)
  | setComp {Γ : Typing} {i : Info} {bs : List Binder} {r : Expr} {t : Option Expr} {elem : Typ}
      (hnodup : (bs.map (·.1)).Nodup) (hbs : ∀ b ∈ bs, D.binder b.1 ∧ b.2.Resolved c)
      (htyp : i.typ = .set elem)
      (hbool : r.typ.sort = .bool) (hterm : t = none → ∃ b, bs = [b])
      (helem : ∀ x ∈ t, x.typ.Fits elem) (hr : WellTyped c D hasThis (Γ.bind bs) r)
      (ht : ∀ x ∈ t, WellTyped c D hasThis (Γ.bind bs) x) :
      WellTyped c D hasThis Γ (.setComp i bs r t)
  | mapComp {Γ : Typing} {i : Info} {b : Binder} {r t : Expr} {key value : Typ}
      (hb : D.binder b.1 ∧ b.2.Resolved c) (htyp : i.typ = .map key value)
      (hbool : r.typ.sort = .bool) (hvalue : t.typ.Fits value)
      (hr : WellTyped c D hasThis (Γ.bind [b]) r) (ht : WellTyped c D hasThis (Γ.bind [b]) t) :
      WellTyped c D hasThis Γ (.mapComp i b r t)
  | letIn {Γ : Typing} {i : Info} {bs : List (String × Expr)} {e : Expr}
      (hnames : ∀ p ∈ bs, D.binder p.1) (htyp : i.typ.sort = e.typ.sort)
      (hbs : ∀ p ∈ bs, WellTyped c D hasThis Γ p.2)
      (he : WellTyped c D hasThis (Γ.bind (bs.map fun p => (p.1, p.2.typ))) e) :
      WellTyped c D hasThis Γ (.letIn i bs e)
  | ite {Γ : Typing} {i : Info} {e a b : Expr} (hbool : e.typ.sort = .bool)
      (htyp : a.typ.Fits i.typ ∧ b.typ.Fits i.typ) (he : WellTyped c D hasThis Γ e)
      (ha : WellTyped c D hasThis Γ a) (hb : WellTyped c D hasThis Γ b) :
      WellTyped c D hasThis Γ (.ite i e a b)
  | cases {Γ : Typing} {i : Info} {e : Expr} {arms : List (Pattern × Expr)} {dt : Path}
      {ts : List Typ} {d : Datatype} (hd : c.datatype dt = .ok d) (hvalue : e.typ = .datatype dt ts)
      (hne : arms ≠ [])
      (hpatterns : ∀ p ∈ arms, ∃ ctor, d.ctor p.1.ctor = .ok ctor ∧
        List.Forall₂ (fun b f => f.2.Fits b.2) p.1.binders ctor.fields)
      (hnames : ∀ p ∈ arms, ∀ b ∈ p.1.binders, D.binder b.1)
      (htyp : ∀ p ∈ arms, p.2.typ.Fits i.typ) (he : WellTyped c D hasThis Γ e)
      (harms : ∀ p ∈ arms, WellTyped c D hasThis (Γ.bind p.1.binders) p.2) :
      WellTyped c D hasThis Γ (.cases i e arms)
  | call {Γ : Typing} {i : Info} {f : Path} {r : Option Expr} {es : List Expr} {callee : Function}
      (hf : c.function f = .ok callee) (hthis : callee.owner.isSome → r = none → hasThis = true)
      (hrecv : ∀ x ∈ r, x.typ.sort = Prelude.refSort) (hargs : D.Passes es callee.params)
      (htyp : callee.result.2.Fits i.typ) (hr : ∀ x ∈ r, WellTyped c D hasThis Γ x)
      (hes : ∀ e ∈ es, WellTyped c D hasThis Γ e) :
      WellTyped c D hasThis Γ (.call i f r es)

end ContractLowering.Source
