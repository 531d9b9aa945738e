import ContractLowering.IL.Build

/-!
# Lemmas on building expressions

What the folding constructors look at: whether an operand is one of the Boolean constants.
-/

namespace ContractLowering.IL.Expr

@[simp] theorem isTrue_tt : tt.isTrue = true := rfl

@[simp] theorem isFalse_tt : tt.isFalse = false := rfl

@[simp] theorem isTrue_ff : ff.isTrue = false := rfl

@[simp] theorem isFalse_ff : ff.isFalse = true := rfl

@[simp] theorem conjOperands_tt : tt.conjOperands = [] := rfl

theorem isTrue_iff {e : Expr} : e.isTrue = true ↔ e = tt := by
  constructor
  · intro h
    unfold Expr.isTrue at h
    split at h
    · rfl
    · cases h
  · rintro rfl; rfl

theorem isFalse_iff {e : Expr} : e.isFalse = true ↔ e = ff := by
  constructor
  · intro h
    unfold Expr.isFalse at h
    split at h
    · rfl
    · cases h
  · rintro rfl; rfl

/-- An implication with a trivial conclusion is trivial. -/
@[simp] theorem imp_tt (a : Expr) : imp a tt = tt := by simp [imp]

@[simp] theorem tt_imp (a : Expr) : imp tt a = a := by simp [imp]

theorem any_isFalse_filter (es : List Expr) :
    (es.filter fun e => !e.isTrue).any isFalse = es.any isFalse := by
  induction es with
  | nil => rfl
  | cons e es ih =>
    cases h : e.isTrue with
    | true => rw [isTrue_iff.1 h]; simpa using ih
    | false => simp only [List.filter_cons, h, Bool.not_false, if_true, List.any_cons, ih]

theorem flatMap_conjOperands_filter (es : List Expr) :
    (es.filter fun e => !e.isTrue).flatMap conjOperands = es.flatMap conjOperands := by
  induction es with
  | nil => rfl
  | cons e es ih =>
    cases h : e.isTrue with
    | true => rw [isTrue_iff.1 h]; simpa using ih
    | false => simp [h, ih]

/-- A conjunction does not see trivial conjuncts. -/
theorem conj_filter (es : List Expr) : conj (es.filter fun e => !e.isTrue) = conj es := by
  rw [conj, conj, any_isFalse_filter, flatMap_conjOperands_filter]

end ContractLowering.IL.Expr
