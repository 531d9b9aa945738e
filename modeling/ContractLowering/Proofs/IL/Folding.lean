import ContractLowering.IL.Build
import Mathlib.Data.List.Forall2

/-!
# Relations that folding respects

The folding constructors look at the heads of their operands: at constants, negations, and
conjunctions and disjunctions. A relation that relates expressions with such a head to expressions
with the same head (`Folding`) is respected by all of them.
-/

namespace ContractLowering.IL

/-- No folding constructor looks into the expression. -/
def Expr.Unfolded : Expr → Prop
  | .bool _ | .not _ | .multi .. => False
  | _ => True

/-- Two expressions with the same head, as far as folding looks, and related operands. -/
inductive SameHead (R : Expr → Expr → Prop) : Expr → Expr → Prop
  | bool (b : Bool) : SameHead R (.bool b) (.bool b)
  | not {a a'} (h : R a a') : SameHead R (.not a) (.not a')
  | multi {op as bs} (h : List.Forall₂ R as bs) : SameHead R (.multi op as) (.multi op bs)
  | other {a a'} (h : a.Unfolded) (h' : a'.Unfolded) : SameHead R a a'

/-- A relation that relates expressions with the same heads, and what is built of related ones. -/
structure Folding (R : Expr → Expr → Prop) : Prop where
  head : ∀ {a a'}, R a a' → SameHead R a a'
  bool : ∀ b, R (.bool b) (.bool b)
  not : ∀ {a a'}, R a a' → R (.not a) (.not a')
  multi : ∀ {op as bs}, List.Forall₂ R as bs → R (.multi op as) (.multi op bs)
  binary : ∀ {op a a' b b'}, R a a' → R b b' → R (.binary op a b) (.binary op a' b')
  ite : ∀ {a a' b b' c c'}, R a a' → R b b' → R c c' → R (.ite a b c) (.ite a' b' c')

namespace Folding

variable {R : Expr → Expr → Prop} {a a' b b' c c' : Expr} {as bs : List Expr} (hR : Folding R)
include hR

theorem isTrue_eq (h : R a a') : a.isTrue = a'.isTrue := by
  cases hR.head h with
  | other ha ha' => cases a <;> cases a' <;> first | rfl | exact ha.elim | exact ha'.elim
  | _ => rfl

theorem isFalse_eq (h : R a a') : a.isFalse = a'.isFalse := by
  cases hR.head h with
  | other ha ha' => cases a <;> cases a' <;> first | rfl | exact ha.elim | exact ha'.elim
  | _ => rfl

theorem neg (h : R a a') : R a.neg a'.neg := by
  have hnot := hR.not h
  cases hR.head h with
  | bool b => exact hR.bool _
  | not hinner => exact hinner
  | multi => exact hnot
  | other ha ha' =>
    cases a <;> first | exact ha.elim | (cases a' <;> first | exact ha'.elim | exact hnot)

theorem conjOperands (h : R a a') : List.Forall₂ R a.conjOperands a'.conjOperands := by
  have hself : List.Forall₂ R [a] [a'] := .cons h .nil
  cases hR.head h with
  | bool b => cases b with
    | true => exact .nil
    | false => exact hself
  | not => exact hself
  | @multi op as bs has => cases op with
    | and => exact has
    | _ => exact hself
  | other ha ha' =>
    cases a <;> first | exact ha.elim | (cases a' <;> first | exact ha'.elim | exact hself)

theorem disjOperands (h : R a a') : List.Forall₂ R a.disjOperands a'.disjOperands := by
  have hself : List.Forall₂ R [a] [a'] := .cons h .nil
  cases hR.head h with
  | bool b => cases b with
    | true => exact hself
    | false => exact .nil
  | not => exact hself
  | @multi op as bs has => cases op with
    | or => exact has
    | _ => exact hself
  | other ha ha' =>
    cases a <;> first | exact ha.elim | (cases a' <;> first | exact ha'.elim | exact hself)

omit hR in
theorem any_eq {p : Expr → Bool} (hp : ∀ a a', R a a' → p a = p a') (h : List.Forall₂ R as bs) :
    as.any p = bs.any p := by
  induction h with
  | nil => rfl
  | cons h _ ih => rw [List.any_cons, List.any_cons, hp _ _ h, ih]

omit hR in
theorem flatMap {f : Expr → List Expr} (hf : ∀ a a', R a a' → List.Forall₂ R (f a) (f a'))
    (h : List.Forall₂ R as bs) : List.Forall₂ R (as.flatMap f) (bs.flatMap f) := by
  induction h with
  | nil => exact .nil
  | cons h _ ih => exact List.rel_append (hf _ _ h) ih

theorem conj (h : List.Forall₂ R as bs) : R (.conj as) (.conj bs) := by
  have hops := flatMap (f := Expr.conjOperands) (fun _ _ => hR.conjOperands) h
  have hany := any_eq (p := Expr.isFalse) (fun _ _ => hR.isFalse_eq) h
  unfold Expr.conj
  rw [hany]
  split
  · exact hR.bool false
  · generalize as.flatMap Expr.conjOperands = us at hops ⊢
    generalize bs.flatMap Expr.conjOperands = vs at hops ⊢
    rcases hops with _ | ⟨ha, _ | ⟨hb, hrest⟩⟩
    · exact hR.bool true
    · exact ha
    · exact hR.multi (.cons ha (.cons hb hrest))

theorem disj (h : List.Forall₂ R as bs) : R (.disj as) (.disj bs) := by
  have hops := flatMap (f := Expr.disjOperands) (fun _ _ => hR.disjOperands) h
  have hany := any_eq (p := Expr.isTrue) (fun _ _ => hR.isTrue_eq) h
  unfold Expr.disj
  rw [hany]
  split
  · exact hR.bool true
  · generalize as.flatMap Expr.disjOperands = us at hops ⊢
    generalize bs.flatMap Expr.disjOperands = vs at hops ⊢
    rcases hops with _ | ⟨ha, _ | ⟨hb, hrest⟩⟩
    · exact hR.bool false
    · exact ha
    · exact hR.multi (.cons ha (.cons hb hrest))

theorem imp (ha : R a a') (hb : R b b') : R (.imp a b) (.imp a' b') := by
  unfold Expr.imp
  rw [hR.isTrue_eq ha, hR.isTrue_eq hb, hR.isFalse_eq ha, hR.isFalse_eq hb]
  split
  · exact hb
  split
  · exact hR.bool true
  split
  · exact hR.neg ha
  · exact hR.binary ha hb

theorem cond (ha : R a a') (hb : R b b') (hc : R c c') : R (.cond a b c) (.cond a' b' c') := by
  unfold Expr.cond
  rw [hR.isTrue_eq ha, hR.isFalse_eq ha]
  split
  · exact hb
  split
  · exact hc
  · exact hR.ite ha hb hc

end Folding

end ContractLowering.IL
