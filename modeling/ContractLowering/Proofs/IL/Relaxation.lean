import ContractLowering.IL.Program
import Mathlib.Data.List.Forall2

/-!
# Programs that check less

A declaration relaxes another one if it is the same but for some checks: a statement may assume
what the other asserts, and a clause of a loop or a procedure may be free where the other's is
checked. Which checks may be missing is a relation between the procedure they stand in, their
message and their condition; a declaration with none to miss is the same
(`Decl.Relaxes.eq_of_none`).
-/

namespace ContractLowering.IL

/-- A clause that is the same, or free instead of checked. -/
inductive Clause.Relaxes (P : Message → Expr → Prop) : Clause → Clause → Prop
  | same (k : Clause) : Relaxes P k k
  | spared {msg : Message} {e : Expr} (h : P msg e) : Relaxes P (.assumed e) (.checked msg e)

mutual

/-- A statement that is the same but for checks that it assumes. -/
inductive Stmt.Relaxes (P : Message → Expr → Prop) : Stmt → Stmt → Prop
  | same (s : Stmt) : Stmt.Relaxes P s s
  | spared {msg : Message} {e : Expr} (h : P msg e) : Stmt.Relaxes P (.assume e) (.assert msg e)
  | ifElse (guard : Option Expr) {a a' b b' : List Stmt} (ha : Stmt.RelaxesAll P a a')
      (hb : Stmt.RelaxesAll P b b') : Stmt.Relaxes P (.ifElse guard a b) (.ifElse guard a' b')
  | loop (guard : Option Expr) {ks ks' : List Clause} {a a' : List Stmt}
      (hk : List.Forall₂ (Clause.Relaxes P) ks ks') (ha : Stmt.RelaxesAll P a a') :
      Stmt.Relaxes P (.loop guard ks a) (.loop guard ks' a')
  | block (label : Option String) {a a' : List Stmt} (ha : Stmt.RelaxesAll P a a') :
      Stmt.Relaxes P (.block label a) (.block label a')

/-- Statements that are the same, in the same order, but for checks that they assume. -/
inductive Stmt.RelaxesAll (P : Message → Expr → Prop) : List Stmt → List Stmt → Prop
  | nil : Stmt.RelaxesAll P [] []
  | cons {s s' : Stmt} {ss ss' : List Stmt} (h : Stmt.Relaxes P s s')
      (hs : Stmt.RelaxesAll P ss ss') : Stmt.RelaxesAll P (s :: ss) (s' :: ss')

end

/-- The procedure that a declaration is the contract or the implementation of. -/
def Decl.procName? : Decl → Option String
  | .procedure p => some p.name
  | .implementation i => some i.name
  | _ => none

/-- A declaration that is the same but for checks of its clauses and of its body. -/
inductive Decl.Relaxes (C J : String → Message → Expr → Prop) : Decl → Decl → Prop
  | same (d : Decl) : Relaxes C J d d
  | procedure (p : Procedure) {pre post : List Clause}
      (hpre : List.Forall₂ (Clause.Relaxes (C p.name)) p.requires pre)
      (hpost : List.Forall₂ (Clause.Relaxes (C p.name)) p.ensures post) :
      Relaxes C J (.procedure p) (.procedure { p with requires := pre, ensures := post })
  | implementation (i : Implementation) {body : List Stmt}
      (h : Stmt.RelaxesAll (J i.name) i.body body) :
      Relaxes C J (.implementation i) (.implementation { i with body })

variable {P : Message → Expr → Prop}

namespace Clause.Relaxes

theorem refl_all (ks : List Clause) : List.Forall₂ (Relaxes P) ks ks :=
  List.forall₂_same.mpr fun k _ => .same k

theorem eq_of_none (hP : ∀ msg e, ¬ P msg e) {k k' : Clause} (h : Relaxes P k k') : k = k' := by
  cases h with
  | same => rfl
  | spared h => exact absurd h (hP _ _)

theorem eq_of_none_all (hP : ∀ msg e, ¬ P msg e) {ks ks' : List Clause}
    (h : List.Forall₂ (Relaxes P) ks ks') : ks = ks' := by
  rw [← List.forall₂_eq_eq_eq]
  exact h.imp fun _ _ => eq_of_none hP

end Clause.Relaxes

namespace Stmt

theorem RelaxesAll.refl (ss : List Stmt) : RelaxesAll P ss ss := by
  induction ss with
  | nil => exact .nil
  | cons s ss ih => exact .cons (.same s) ih

theorem RelaxesAll.append {a a' b b' : List Stmt} (ha : RelaxesAll P a a')
    (hb : RelaxesAll P b b') : RelaxesAll P (a ++ b) (a' ++ b') := by
  induction a generalizing a' with
  | nil =>
    cases ha
    exact hb
  | cons s a ih =>
    cases ha with
    | cons h hs => exact .cons h (ih hs)

theorem RelaxesAll.single {s s' : Stmt} (h : Relaxes P s s') : RelaxesAll P [s] [s'] :=
  .cons h .nil

/-- One statement for every element, each relaxing the other's. -/
theorem RelaxesAll.map {α : Type} {f g : α → Stmt} {l : List α}
    (h : ∀ a ∈ l, Relaxes P (f a) (g a)) : RelaxesAll P (l.map f) (l.map g) := by
  induction l with
  | nil => exact .nil
  | cons a l ih => exact .cons (h a (by simp)) (ih fun b hb => h b (by simp [hb]))

mutual

theorem Relaxes.eq_of_none (hP : ∀ msg e, ¬ P msg e) {s s' : Stmt} :
    Relaxes P s s' → s = s'
  | .same _ => rfl
  | .spared h => absurd h (hP _ _)
  | .ifElse guard ha hb => by rw [ha.eq_of_none hP, hb.eq_of_none hP]
  | .loop guard hk ha => by rw [Clause.Relaxes.eq_of_none_all hP hk, ha.eq_of_none hP]
  | .block label ha => by rw [ha.eq_of_none hP]

theorem RelaxesAll.eq_of_none (hP : ∀ msg e, ¬ P msg e) {ss ss' : List Stmt} :
    RelaxesAll P ss ss' → ss = ss'
  | .nil => rfl
  | .cons h hs => by rw [h.eq_of_none hP, hs.eq_of_none hP]

end

end Stmt

/-! ## More checks that may be missing -/

variable {Q : Message → Expr → Prop}

theorem Clause.Relaxes.mono (hPQ : ∀ msg e, P msg e → Q msg e) {k k' : Clause}
    (h : Relaxes P k k') : Relaxes Q k k' := by
  cases h with
  | same => exact .same _
  | spared h => exact .spared (hPQ _ _ h)

mutual

theorem Stmt.Relaxes.mono (hPQ : ∀ msg e, P msg e → Q msg e) {s s' : Stmt} :
    Stmt.Relaxes P s s' → Stmt.Relaxes Q s s'
  | .same _ => .same _
  | .spared h => .spared (hPQ _ _ h)
  | .ifElse guard ha hb => .ifElse guard (ha.mono hPQ) (hb.mono hPQ)
  | .loop guard hk ha => .loop guard (hk.imp fun _ _ h => h.mono hPQ) (ha.mono hPQ)
  | .block label ha => .block label (ha.mono hPQ)

theorem Stmt.RelaxesAll.mono (hPQ : ∀ msg e, P msg e → Q msg e) {ss ss' : List Stmt} :
    Stmt.RelaxesAll P ss ss' → Stmt.RelaxesAll Q ss ss'
  | .nil => .nil
  | .cons h hs => .cons (h.mono hPQ) (hs.mono hPQ)

end

theorem Decl.Relaxes.mono {C C' J J' : String → Message → Expr → Prop}
    (hC : ∀ x msg e, C x msg e → C' x msg e) (hJ : ∀ x msg e, J x msg e → J' x msg e)
    {d d' : Decl} (h : Relaxes C J d d') : Relaxes C' J' d d' := by
  cases h with
  | same => exact .same _
  | procedure p hpre hpost =>
    exact .procedure p (hpre.imp fun _ _ h => h.mono (hC p.name))
      (hpost.imp fun _ _ h => h.mono (hC p.name))
  | implementation i h => exact .implementation i (h.mono (hJ i.name))

/-- A declaration of a procedure that has no check to miss is the same. -/
theorem Decl.Relaxes.eq_of_none {C J : String → Message → Expr → Prop} {d d' : Decl}
    (h : Relaxes C J d d') (hd : ∀ x ∈ d.procName?, ∀ msg e, ¬ C x msg e ∧ ¬ J x msg e) : d = d' := by
  cases h with
  | same => rfl
  | procedure p hpre hpost =>
    have none := fun msg e => (hd p.name rfl msg e).1
    rw [← Clause.Relaxes.eq_of_none_all none hpre, ← Clause.Relaxes.eq_of_none_all none hpost]
  | implementation i h =>
    rw [← h.eq_of_none fun msg e => (hd i.name rfl msg e).2]

end ContractLowering.IL
