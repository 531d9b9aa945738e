import ContractLowering.Proofs.Source.Recursor
import ContractLowering.Source.FreeVars
import Mathlib.Logic.Function.Basic

/-!
# Variables and their binders

`Expr.Scoped P F Γ e` says that every variable that `e` binds has a name with the property `P`, and
that every variable with a known type, bound in `e` or known from `Γ`, carries that type where it
occurs. Triggers are not looked at.
-/

namespace ContractLowering.Source

/-- Types of variables, as far as they are known. -/
abbrev Typing : Type := String → Option Typ

/-- A typing with variables bound, of which later ones hide earlier ones. -/
def Typing.bind (bs : List Binder) (Γ : Typing) : Typing :=
  bs.foldl (fun Γ b => Function.update Γ b.1 (some b.2)) Γ

namespace Typing

variable {bs : List Binder} {Γ : Typing} {x : String}

@[simp] theorem bind_nil : bind [] Γ = Γ := rfl

@[simp] theorem bind_cons {b : Binder} :
    bind (b :: bs) Γ = bind bs (Function.update Γ b.1 (some b.2)) := rfl

theorem bind_of_notMem (h : x ∉ bs.map (·.1)) : bind bs Γ x = Γ x := by
  induction bs generalizing Γ with
  | nil => rfl
  | cons b bs ih =>
    simp only [List.map_cons, List.mem_cons, not_or] at h
    rw [bind_cons, ih h.2, Function.update_of_ne h.1]

/-- The type of a bound variable is that of one of its binders. -/
theorem mem_of_bind (h : x ∈ bs.map (·.1)) : ∃ t, (x, t) ∈ bs ∧ bind bs Γ x = some t := by
  induction bs generalizing Γ with
  | nil => simp at h
  | cons b bs ih =>
    rw [bind_cons]
    by_cases hx : x ∈ bs.map (·.1)
    · obtain ⟨t, ht, he⟩ := ih (Γ := Function.update Γ b.1 (some b.2)) hx
      exact ⟨t, by simp [ht], he⟩
    · obtain rfl : x = b.1 := by simpa [hx] using h
      exact ⟨b.2, by simp, by rw [bind_of_notMem hx]; simp⟩

end Typing

mutual

/-- Bound variables and patterns have their properties, and variables are typed like their
binders. -/
def Expr.Scoped (P : String → Prop) (F : Typ → Pattern → Prop) (Γ : Typing) : Expr → Prop
  | .bool .. | .int .. | .null _ | .this _ => True
  | .var i x => ∀ t ∈ Γ x, i.typ = t
  | .field _ e _ | .arrayLength _ e | .destruct _ e _ _ _ | .isCtor _ e _ _ | .old _ e
  | .fresh _ e | .unary _ _ e => e.Scoped P F Γ
  | .index _ a b | .binary _ _ a b => a.Scoped P F Γ ∧ b.Scoped P F Γ
  | .slice _ e lo hi => e.Scoped P F Γ ∧ Scoped? P F Γ lo ∧ Scoped? P F Γ hi
  | .update _ a b c | .ite _ a b c => a.Scoped P F Γ ∧ b.Scoped P F Γ ∧ c.Scoped P F Γ
  | .display _ _ es | .ctor _ _ _ es => ScopedList P F Γ es
  | .mapDisplay _ kvs => ScopedEntries P F Γ kvs
  | .quant _ _ bs r b _ _ =>
    (∀ b ∈ bs, P b.1) ∧ Scoped? P F (Γ.bind bs) r ∧ b.Scoped P F (Γ.bind bs)
  | .setComp _ bs r t => (∀ b ∈ bs, P b.1) ∧ r.Scoped P F (Γ.bind bs) ∧ Scoped? P F (Γ.bind bs) t
  | .mapComp _ b r t => P b.1 ∧ r.Scoped P F (Γ.bind [b]) ∧ t.Scoped P F (Γ.bind [b])
  | .letIn _ bs b =>
    (∀ p ∈ bs, P p.1) ∧ ScopedBindings P F Γ bs ∧
      b.Scoped P F (Γ.bind (bs.map fun p => (p.1, p.2.typ)))
  | .cases _ e arms => e.Scoped P F Γ ∧ ScopedArms P F Γ e.typ arms
  | .call _ _ r es => Scoped? P F Γ r ∧ ScopedList P F Γ es

/-- The same of an optional expression. -/
def Expr.Scoped? (P : String → Prop) (F : Typ → Pattern → Prop) (Γ : Typing) :
    Option Expr → Prop
  | none => True
  | some e => e.Scoped P F Γ

/-- The same of several expressions. -/
def Expr.ScopedList (P : String → Prop) (F : Typ → Pattern → Prop) (Γ : Typing) :
    List Expr → Prop
  | [] => True
  | e :: es => e.Scoped P F Γ ∧ ScopedList P F Γ es

/-- The same of keys and values. -/
def Expr.ScopedEntries (P : String → Prop) (F : Typ → Pattern → Prop) (Γ : Typing) :
    List (Expr × Expr) → Prop
  | [] => True
  | (k, v) :: kvs => (k.Scoped P F Γ ∧ v.Scoped P F Γ) ∧ ScopedEntries P F Γ kvs

/-- The same of the values of a let. -/
def Expr.ScopedBindings (P : String → Prop) (F : Typ → Pattern → Prop) (Γ : Typing) :
    List (String × Expr) → Prop
  | [] => True
  | (_, e) :: bs => e.Scoped P F Γ ∧ ScopedBindings P F Γ bs

/-- The same of match cases, each of which binds the variables of its pattern. -/
def Expr.ScopedArms (P : String → Prop) (F : Typ → Pattern → Prop) (Γ : Typing) (t : Typ) :
    List (Pattern × Expr) → Prop
  | [] => True
  | (p, e) :: arms =>
    (F t p ∧ (∀ b ∈ p.binders, P b.1) ∧ e.Scoped P F (Γ.bind p.binders)) ∧ ScopedArms P F Γ t arms

end

namespace Expr

variable {P : String → Prop} {F : Typ → Pattern → Prop} {Γ : Typing}

theorem scoped?_iff {o : Option Expr} : Scoped? P F Γ o ↔ ∀ e ∈ o, e.Scoped P F Γ := by
  cases o <;> simp [Scoped?]

theorem scopedList_iff {es : List Expr} : ScopedList P F Γ es ↔ ∀ e ∈ es, e.Scoped P F Γ := by
  induction es with
  | nil => simp [ScopedList]
  | cons e es ih => simp [ScopedList, ih]

theorem scopedEntries_iff {kvs : List (Expr × Expr)} :
    ScopedEntries P F Γ kvs ↔ ∀ p ∈ kvs, p.1.Scoped P F Γ ∧ p.2.Scoped P F Γ := by
  induction kvs with
  | nil => simp [ScopedEntries]
  | cons p kvs ih => simp [ScopedEntries, ih]

theorem scopedBindings_iff {bs : List (String × Expr)} :
    ScopedBindings P F Γ bs ↔ ∀ p ∈ bs, p.2.Scoped P F Γ := by
  induction bs with
  | nil => simp [ScopedBindings]
  | cons p bs ih => simp [ScopedBindings, ih]

theorem scopedArms_iff {t : Typ} {arms : List (Pattern × Expr)} :
    ScopedArms P F Γ t arms ↔
      ∀ p ∈ arms, F t p.1 ∧ (∀ b ∈ p.1.binders, P b.1) ∧
        p.2.Scoped P F (Γ.bind p.1.binders) := by
  induction arms with
  | nil => simp [ScopedArms]
  | cons p arms ih => simp [ScopedArms, ih]

/-- Weaker properties of names. -/
theorem Scoped.mono {Q : String → Prop} (h : ∀ x, P x → Q x) (e : Expr) :
    ∀ {Γ : Typing}, e.Scoped P F Γ → e.Scoped Q F Γ := by
  induction e using Expr.recData with
  | bool | int | null | this => intros; trivial
  | var i x => exact fun he => he
  | field i e f ih => exact ih
  | arrayLength i e ih => exact ih
  | destruct i e d c f ih => exact ih
  | isCtor i e d c ih => exact ih
  | old i e ih => exact ih
  | fresh i e ih => exact ih
  | unary i op e ih => exact ih
  | index i a b iha ihb => exact fun he => ⟨iha he.1, ihb he.2⟩
  | binary i op a b iha ihb => exact fun he => ⟨iha he.1, ihb he.2⟩
  | slice i e lo hi ih ihlo ihhi =>
    refine fun he => ⟨ih he.1, scoped?_iff.2 fun a ha => ?_, scoped?_iff.2 fun a ha => ?_⟩
    · exact ihlo a ha (scoped?_iff.1 he.2.1 a ha)
    · exact ihhi a ha (scoped?_iff.1 he.2.2 a ha)
  | update i a b c iha ihb ihc => exact fun he => ⟨iha he.1, ihb he.2.1, ihc he.2.2⟩
  | ite i a b c iha ihb ihc => exact fun he => ⟨iha he.1, ihb he.2.1, ihc he.2.2⟩
  | display i k es ih =>
    exact fun he => scopedList_iff.2 fun a ha => ih a ha (scopedList_iff.1 he a ha)
  | ctor i d c es ih =>
    exact fun he => scopedList_iff.2 fun a ha => ih a ha (scopedList_iff.1 he a ha)
  | mapDisplay i kvs ih =>
    refine fun he => scopedEntries_iff.2 fun p hp => ?_
    have hp' := scopedEntries_iff.1 he p hp
    exact ⟨(ih p hp).1 hp'.1, (ih p hp).2 hp'.2⟩
  | quant i q bs r b ts ind ihr ihb iht =>
    refine fun he => ⟨fun b hb => h _ (he.1 b hb), scoped?_iff.2 fun a ha => ?_, ihb he.2.2⟩
    exact ihr a ha (scoped?_iff.1 he.2.1 a ha)
  | setComp i bs r t ihr iht =>
    refine fun he => ⟨fun b hb => h _ (he.1 b hb), ihr he.2.1, scoped?_iff.2 fun a ha => ?_⟩
    exact iht a ha (scoped?_iff.1 he.2.2 a ha)
  | mapComp i b r t ihr iht => exact fun he => ⟨h _ he.1, ihr he.2.1, iht he.2.2⟩
  | letIn i bs b ihbs ihb =>
    refine fun he => ⟨fun p hp => h _ (he.1 p hp), scopedBindings_iff.2 fun p hp => ?_, ihb he.2.2⟩
    exact ihbs p hp (scopedBindings_iff.1 he.2.1 p hp)
  | cases i e arms ihe iharms =>
    refine fun he => ⟨ihe he.1, scopedArms_iff.2 fun p hp => ?_⟩
    obtain ⟨hfits, hnames, hbody⟩ := scopedArms_iff.1 he.2 p hp
    exact ⟨hfits, fun b hb => h _ (hnames b hb), iharms p hp hbody⟩
  | call i f r es ihr ihes =>
    refine fun he => ⟨scoped?_iff.2 fun a ha => ?_, scopedList_iff.2 fun a ha => ?_⟩
    · exact ihr a ha (scoped?_iff.1 he.1 a ha)
    · exact ihes a ha (scopedList_iff.1 he.2 a ha)

/-! ## Free variables of parts -/

variable {x : String}

theorem mem_freeVars? {o : Option Expr} : x ∈ freeVars? o ↔ ∃ e ∈ o, x ∈ e.freeVars := by
  cases o <;> simp [freeVars?]

theorem mem_freeVarsList {es : List Expr} :
    x ∈ freeVarsList es ↔ ∃ e ∈ es, x ∈ e.freeVars := by
  induction es with
  | nil => simp [freeVarsList]
  | cons e es ih => simp [freeVarsList, ih]

theorem mem_freeVarsEntries {kvs : List (Expr × Expr)} :
    x ∈ freeVarsEntries kvs ↔ ∃ p ∈ kvs, x ∈ p.1.freeVars ∨ x ∈ p.2.freeVars := by
  induction kvs with
  | nil => simp [freeVarsEntries]
  | cons p kvs ih => simp [freeVarsEntries, ih, or_assoc]

theorem mem_freeVarsBindings {bs : List (String × Expr)} :
    x ∈ freeVarsBindings bs ↔ ∃ p ∈ bs, x ∈ p.2.freeVars := by
  induction bs with
  | nil => simp [freeVarsBindings]
  | cons p bs ih => simp [freeVarsBindings, ih]

theorem mem_freeVarsTriggers {ts : List (List Expr)} :
    x ∈ freeVarsTriggers ts ↔ ∃ t ∈ ts, ∃ e ∈ t, x ∈ e.freeVars := by
  induction ts with
  | nil => simp [freeVarsTriggers]
  | cons t ts ih => simp [freeVarsTriggers, ih, mem_freeVarsList]

theorem mem_without {bound xs : List String} : x ∈ without bound xs ↔ x ∈ xs ∧ x ∉ bound := by
  simp [without]

theorem mem_freeVarsArms {arms : List (Pattern × Expr)} :
    x ∈ freeVarsArms arms ↔ ∃ p ∈ arms, x ∈ p.2.freeVars ∧ x ∉ p.1.binders.map (·.1) := by
  induction arms with
  | nil => simp [freeVarsArms]
  | cons p arms ih => simp only [freeVarsArms, List.mem_append, mem_without, ih, List.mem_cons,
      exists_eq_or_imp]

end Expr

end ContractLowering.Source
