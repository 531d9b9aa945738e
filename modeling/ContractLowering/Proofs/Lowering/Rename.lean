import ContractLowering.Proofs.Lowering.Congruence
import ContractLowering.Proofs.Source.Scoped
import ContractLowering.Proofs.Source.Subst

/-!
# Lowering commutes with renaming variables

An induction hypothesis speaks of fresh copies of bound variables: the goal is lowered again with
copies substituted. `lowerExpr_copies` says that this is the lowering of the goal itself, renamed,
up to triggers.

Three things have to be left alone by the renaming for that: the names by which lowered code
refers to constants, heaps and the receiver (`Reserved`), since they do not change when source
variables do; the binders inside the goal; and the types of variables, by which operators and
boxes are chosen. A renaming that does so is a congruence of lowering (`Fixes.congruence`).
-/

namespace ContractLowering

open IL Source

/-! ## Boxes -/

namespace Boxing

variable {f : String → String}

/-- The argument of a box or unbox function renamed. -/
def Applied.ren (f : String → String) : Applied → Applied
  | .boxed s inner => .boxed s (inner.ren f)
  | .unboxed s inner => .unboxed s (inner.ren f)

theorem applied?_ren (e : IL.Expr) : applied? (e.ren f) = (applied? e).map (Applied.ren f) := by
  cases e with
  | app g args =>
    rcases args with _ | ⟨a, _ | ⟨b, l⟩⟩
    · rfl
    · simp only [Expr.ren_app, List.map_cons, List.map_nil, applied?]
      cases Prelude.BoxSort.ofBoxName? g with
      | some s => rfl
      | none => cases Prelude.BoxSort.ofUnboxName? g <;> rfl
    · rfl
  | _ => rfl

theorem ren_box (t : Typ) (e : IL.Expr) : (box t e).ren f = box t (e.ren f) := by
  unfold box
  cases t.boxSort? with
  | none => rfl
  | some s =>
    rw [applied?_ren]
    rcases applied? e with _ | (⟨s', inner⟩ | ⟨s', inner⟩)
    · simp
    · simp [Applied.ren]
    · simp only [Option.map_some, Applied.ren]
      split
      · rfl
      · simp

theorem ren_unbox (t : Typ) (e : IL.Expr) : (unbox t e).ren f = unbox t (e.ren f) := by
  unfold unbox
  cases t.boxSort? with
  | none => rfl
  | some s =>
    rw [applied?_ren]
    rcases applied? e with _ | (⟨s', inner⟩ | ⟨s', inner⟩)
    · simp
    · simp only [Option.map_some, Applied.ren]
      split
      · rfl
      · simp
    · simp [Applied.ren]

/-- An application of a box or unbox function is what it is recognized as. -/
theorem applied?_eq_some {e : IL.Expr} {r : Applied} (h : applied? e = some r) :
    ∃ s a, (e = .app (Prelude.BoxSort.boxName s) [a] ∧ r = .boxed s a) ∨
      (e = .app (Prelude.BoxSort.unboxName s) [a] ∧ r = .unboxed s a) := by
  unfold applied? at h
  split at h
  · rename_i g a
    split at h
    · rename_i s hs
      obtain rfl := Option.some.inj h
      have hn := List.find?_some hs
      exact ⟨s, a, .inl ⟨by rw [beq_iff_eq.1 hn], rfl⟩⟩
    · rename_i hs
      obtain ⟨s, hs, rfl⟩ := Option.map_eq_some_iff.1 h
      have hn := List.find?_some hs
      exact ⟨s, a, .inr ⟨by rw [beq_iff_eq.1 hn], rfl⟩⟩
  · cases h

end Boxing

/-! ## Renamings as congruences -/

/-- Renaming is compatible with building expressions. -/
theorem Compatible.renames (P : String → Prop) (f : String → String) :
    Compatible (Renames P f) where
  bool := .bool
  num _ := ⟨rfl, trivial⟩
  app := .app
  binary := .binary
  multi h := ⟨by simp [Renames.map_eq h], (Expr.boundIn_multi _ _).2 (Renames.forall_bound h)⟩
  neg := .neg
  conj := .conj
  disj := .disj
  imp := .imp
  cond := .cond
  applied h := by
    refine .of_apps h (fun {g as b} h => ?_) fun {g as' a} h => ?_
    · have heq := h.eq
      cases b with
      | app g' as' =>
        simp only [Expr.ren_app, Expr.app.injEq] at heq
        obtain ⟨rfl, hmap⟩ := heq
        refine ⟨as', rfl, ?_⟩
        have hbound := (Expr.boundIn_app _ _).1 h.bound
        clear h
        induction as generalizing as' with
        | nil =>
          obtain rfl := List.map_eq_nil_iff.1 hmap
          exact .nil
        | cons a as ih =>
          obtain ⟨a', as', rfl, ha, has⟩ := List.map_eq_cons_iff.1 hmap
          exact .cons ⟨ha, hbound a (by simp)⟩ (ih as' has fun x hx => hbound x (by simp [hx]))
      | _ => simp [Expr.ren] at heq
    · have heq := h.eq
      cases a with
      | app g' as =>
        simp only [Expr.ren_app, Expr.app.injEq] at heq
        exact ⟨as, by rw [heq.1]⟩
      | _ => simp [Expr.ren] at heq

/-- A renaming leaves reserved names alone, and what heaps and lowered code bind has a property. -/
structure Fixes (env : Env) (v : View) (P : String → Prop) (f : String → String) : Prop where
  reserved : ∀ {x}, Reserved env v x → f x = x
  generated : ∀ {x}, Generated x → P x
  heap : v.heap.BoundIn P
  oldHeap : v.oldHeap.BoundIn P

namespace Fixes

variable {env : Env} {v : View} {P : String → Prop} {f : String → String}

theorem old (h : Fixes env v P f) : Fixes env v.old P f :=
  ⟨fun hx => h.reserved hx.of_old, h.generated, h.oldHeap, h.oldHeap⟩

theorem keep (h : Fixes env v P f) (xs : List String) : Fixes env v P (keep xs f) :=
  ⟨fun hx => keep_of_fixed (h.reserved hx), h.generated, h.heap, h.oldHeap⟩

/-- A binder of lowered code changes nothing about the renaming. -/
theorem keep_generated (h : Fixes env v P f) {x : String} (hx : Generated x) :
    IL.keep [x] f = f := by
  funext y
  by_cases hy : y = x
  · rw [keep_of_mem (by simp [hy]), hy, h.reserved (.generated hx)]
  · exact keep_of_notMem (by simp [hy])

/-- A renaming that leaves reserved names alone is a congruence. -/
theorem congruence (h : Fixes env v P f) : Congruence env v v (Renames P f) :=
  .of_reserved (.renames P f) (fun hx => .const (h.reserved hx))
    (.self (Expr.ren_of_fixed _ fun _ hx => h.reserved (.heap hx)) h.heap)
    (.self (Expr.ren_of_fixed _ fun _ hx => h.reserved (.oldHeap hx)) h.oldHeap)
    (fun hx _ ha => .quantify (by simpa using h.generated hx)
      (by simpa [h.keep_generated hx] using ha))
    fun ha => .lambda (by simpa using h.generated .box)
      (by simpa [h.keep_generated .box] using ha)

/-- The where clauses of variables that keep their names. -/
theorem where_keep (h : Fixes env v P f) {bs : List Source.Binder} (hbs : ∀ b ∈ bs, f b.1 = b.1)
    {a a' : IL.Expr} (ha : (bindersWhere v.heap bs).Returns env a)
    (ha' : (bindersWhere v.heap bs).Returns env a') : Renames P f a a' :=
  h.congruence.bindersWhere h.congruence.heap
    (List.forall₂_same.2 fun b hb => ⟨rfl, .const (hbs b hb)⟩) ha ha'

end Fixes


end ContractLowering
