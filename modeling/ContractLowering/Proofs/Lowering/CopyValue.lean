import ContractLowering.Proofs.Lowering.Copies

/-!
# Values of copies

An expression with copies in place of variables has the value that the expression itself has when
the variables stand for what their copies do (`Copies.eval_subst`). And the values of copies do
not matter to an expression that mentions none (`Copies.eval_forget`): copies are renamed to a
name that nothing binds.
-/

namespace ContractLowering

open IL Source

namespace Copies

variable {k : Copies}

/-- A name that is no copy with the number, of whatever variable. -/
def Plain (k : Copies) (x : String) : Prop := ∀ y, x ≠ k.name y

theorem Plain.not_isCopy {x : String} (h : k.Plain x) : ¬ k.IsCopy x := by
  rintro ⟨y, -, rfl⟩
  exact h y rfl

/-- Variables to their copies. -/
def rename (k : Copies) (x : String) : String := if x ∈ k.vars then k.name x else x

theorem rename_of_mem {x : String} (h : x ∈ k.vars) : k.rename x = k.name x := if_pos h

theorem rename_of_notMem {x : String} (h : x ∉ k.vars) : k.rename x = x := if_neg h

theorem avoids_rename : Avoids (fun x => ¬ k.IsCopy x) k.rename := by
  intro x
  by_cases h : x ∈ k.vars
  · right
    rw [rename_of_mem h]
    exact fun hn => hn ⟨x, h, rfl⟩
  · exact .inl (rename_of_notMem h)

/-- A name that is no copy of one of the variables, and not plain either. -/
def spare (k : Copies) : String := k.name (k.name "")

/-- The spare name counted as a copy. -/
def wide (k : Copies) : Copies := ⟨k.name "" :: k.vars, k.number⟩

theorem isCopy_wide {x : String} : k.wide.IsCopy x ↔ x = k.spare ∨ k.IsCopy x := by
  simp [IsCopy, wide, spare, name]

theorem Plain.not_isCopy_wide {x : String} (h : k.Plain x) : ¬ k.wide.IsCopy x := by
  rw [isCopy_wide]
  rintro (rfl | hx)
  · exact h _ rfl
  · exact h.not_isCopy hx

open Classical in
/-- All copies to the spare name. -/
noncomputable def forget (k : Copies) (x : String) : String := if k.IsCopy x then k.spare else x

theorem forget_of_not {x : String} (h : ¬ k.IsCopy x) : k.forget x = x := if_neg h

theorem avoids_forget : Avoids (fun x => ¬ k.wide.IsCopy x) k.forget := by
  intro x
  by_cases h : k.IsCopy x
  · right
    rw [forget, if_pos h]
    exact fun hn => hn (isCopy_wide.2 (.inl rfl))
  · exact .inl (forget_of_not h)

/-- What lowered code binds by itself begins with a dollar sign, the spare name does not. -/
theorem spare_not_generated : ¬ Generated k.spare := by
  have hspare : ∃ cs, k.spare.toList = '%' :: cs := by
    simp [spare, name, Naming.renamed]
  obtain ⟨cs, hcs⟩ := hspare
  intro h
  generalize hx : k.spare = x at h
  rw [hx] at hcs
  cases h <;>
    simp [Naming.boxVar, Naming.indexVar, WhereClause.boxVar, WhereClause.indexVar] at hcs

/-- The variables and their copies are not mentioned by lowered code on its own account, and
neither the variables nor the names in the heaps are copies. -/
structure Apart (k : Copies) (env : Env) (v : View) : Prop where
  plain : ∀ x ∈ k.vars, k.Plain x
  vars : ∀ x ∈ k.vars, ¬ Reserved env v x
  copies : ∀ x ∈ k.vars, ¬ Reserved env v (k.name x)
  heap : ∀ x ∈ v.heap.names, k.Plain x
  oldHeap : ∀ x ∈ v.oldHeap.names, k.Plain x

namespace Apart

variable {env : Env} {v : View}

theorem not_isCopy (h : k.Apart env v) {x : String} (hx : Reserved env v x) : ¬ k.IsCopy x := by
  rintro ⟨y, hy, rfl⟩
  exact h.copies y hy hx

theorem fixes_rename (h : k.Apart env v) : Fixes env v (fun x => ¬ k.IsCopy x) k.rename where
  reserved hx := rename_of_notMem fun hk => h.vars _ hk hx
  generated hx := h.not_isCopy (.generated hx)
  heap := Expr.boundIn_of_names _ fun x hx => (h.heap x hx).not_isCopy
  oldHeap := Expr.boundIn_of_names _ fun x hx => (h.oldHeap x hx).not_isCopy

theorem fixes_forget (h : k.Apart env v) :
    Fixes env v (fun x => ¬ k.wide.IsCopy x) k.forget where
  reserved hx := forget_of_not (h.not_isCopy hx)
  generated hx := by
    rw [isCopy_wide]
    rintro (rfl | hc)
    · exact spare_not_generated hx
    · exact h.not_isCopy (.generated hx) hc
  heap := Expr.boundIn_of_names _ fun x hx => (h.heap x hx).not_isCopy_wide
  oldHeap := Expr.boundIn_of_names _ fun x hx => (h.oldHeap x hx).not_isCopy_wide

end Apart

/-! ## Expressions -/

section

variable {env : Env} {v : View} {M : Model} {old ρ : M.Valuation} {Γ : Typing} {e : Source.Expr}
  {a a' : IL.Expr}

/-- An expression with copies in place of variables. -/
theorem eval_subst (h : k.Apart env v) {s : Subst} (hs : s.IsCopies k Γ)
    (hname : ∀ x, s.copyName k x = k.rename x)
    (he : e.Scoped k.Plain (PatternFits env.context) Γ) (ha : (lowerExpr v e).Returns env a)
    (ha' : (lowerExpr v (e.subst s)).Returns env a') :
    a'.eval old ρ = a.eval old (ρ ∘ k.rename) := by
  have hscoped := Expr.Scoped.mono (fun x hx => hx.not_isCopy) e he
  have hcopied := lowerExpr_copies e ⟨hs, h.fixes_rename⟩ ⟨hscoped, fun x _ => (hname x).symm⟩
    ha ha'
  exact hcopied.eval_eq avoids_rename

/-- Copies do not matter where they do not occur. -/
theorem eval_forget (h : k.Apart env v) (he : e.Scoped k.Plain (PatternFits env.context) Γ)
    (hfree : ∀ x ∈ e.freeVars, k.Plain x) (ha : (lowerExpr v e).Returns env a) :
    a.eval old (ρ ∘ k.forget) = a.eval old ρ := by
  have hscoped := Expr.Scoped.mono (fun x hx => hx.not_isCopy_wide) e he
  have hnone : ({} : Subst).IsCopies k.wide Γ := ⟨rfl, by simp⟩
  have hcopied := lowerExpr_copies e ⟨hnone, h.fixes_forget⟩
    ⟨hscoped, fun x hx => forget_of_not (hfree x hx).not_isCopy⟩ ha (by rwa [Expr.subst_empty])
  exact (hcopied.eval_eq avoids_forget).symm

/-! ## Where clauses -/

variable {bs : List Source.Binder} {w w' : IL.Expr}

/-- The where clauses of copies are those of the variables, renamed. -/
theorem copied_where (h : k.Apart env v) (hbs : ∀ b ∈ bs, b.1 ∈ k.vars)
    (hw : (bindersWhere v.heap bs).Returns env w)
    (hw' : (bindersWhere v.heap (Induction.renamed k.number bs)).Returns env w') :
    Copied k k.rename w w' := by
  have hfixes := h.fixes_rename.congruence
  refine hfixes.bindersWhere hfixes.heap ?_ hw hw'
  rw [Induction.renamed, List.forall₂_map_right_iff]
  refine List.forall₂_same.2 fun b hb => ⟨rfl, ?_⟩
  have hvar : Renames (¬ k.IsCopy ·) k.rename (.var b.1) (.var (k.rename b.1)) := .var b.1
  rwa [rename_of_mem (hbs b hb)] at hvar

/-- What the where clauses of copies say. -/
theorem where_copies (h : k.Apart env v) (hbs : ∀ b ∈ bs, b.1 ∈ k.vars)
    (hw : (bindersWhere v.heap bs).Returns env w)
    (hw' : (bindersWhere v.heap (Induction.renamed k.number bs)).Returns env w') :
    Holds old ρ w' ↔ Holds old (ρ ∘ k.rename) w :=
  (copied_where h hbs hw hw').holds_iff avoids_rename

/-- Copies do not matter to the where clauses of other variables. -/
theorem where_forget (h : k.Apart env v) (hbs : ∀ b ∈ bs, k.Plain b.1)
    (hw : (bindersWhere v.heap bs).Returns env w) :
    Holds old (ρ ∘ k.forget) w ↔ Holds old ρ w :=
  (Renames.holds_iff (h.fixes_forget.where_keep
    (fun b hb => forget_of_not (hbs b hb).not_isCopy) hw hw) avoids_forget).symm

end

end Copies

end ContractLowering
