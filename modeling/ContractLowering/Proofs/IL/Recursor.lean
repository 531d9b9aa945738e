import ContractLowering.IL.Expr

/-!
# Induction on target expressions

`Expr.recData` has one case per constructor, with the induction hypotheses of nested parts stated
for every member of their list. Triggers are no parts: nothing depends on them.
-/

namespace ContractLowering.IL

/-- Induction on expressions, with a hypothesis for every part apart from triggers. -/
@[elab_as_elim]
theorem Expr.recData {P : Expr → Prop}
    (bool : ∀ b, P (.bool b))
    (num : ∀ d, P (.num d))
    (var : ∀ x, P (.var x))
    (old : ∀ x, P (.old x))
    (app : ∀ f args, (∀ a ∈ args, P a) → P (.app f args))
    (applyLambda : ∀ s f args, P f → (∀ a ∈ args, P a) → P (.applyLambda s f args))
    (not : ∀ e, P e → P (.not e))
    (binary : ∀ op a b, P a → P b → P (.binary op a b))
    (multi : ∀ op es, (∀ e ∈ es, P e) → P (.multi op es))
    (ite : ∀ c a b, P c → P a → P b → P (.ite c a b))
    (letIn : ∀ bs body, (∀ b ∈ bs, P b.2) → P body → P (.letIn bs body))
    (quant : ∀ q bs ts body, P body → P (.quant q bs ts body))
    (lambda : ∀ bs body, P body → P (.lambda bs body)) :
    ∀ e, P e := by
  suffices h : ∀ n (e : Expr), sizeOf e < n → P e from fun e => h _ e (Nat.lt_succ_self _)
  intro n
  induction n with
  | zero => intro e he; omega
  | succ n ih =>
    -- every part of an expression is smaller than the expression
    intro e he
    cases e with
    | bool b => exact bool b
    | num d => exact num d
    | var x => exact var x
    | old x => exact old x
    | app f args =>
      refine app f args fun a ha => ih a ?_
      have := List.sizeOf_lt_of_mem ha; simp at he; omega
    | applyLambda s f args =>
      refine applyLambda s f args (ih f (by simp at he; omega)) fun a ha => ih a ?_
      have := List.sizeOf_lt_of_mem ha; simp at he; omega
    | not e => exact not e (ih e (by simp at he; omega))
    | binary op a b =>
      exact binary op a b (ih a (by simp at he; omega)) (ih b (by simp at he; omega))
    | multi op es =>
      refine multi op es fun a ha => ih a ?_
      have := List.sizeOf_lt_of_mem ha; simp at he; omega
    | ite c a b =>
      exact ite c a b (ih c (by simp at he; omega)) (ih a (by simp at he; omega))
        (ih b (by simp at he; omega))
    | letIn bs body =>
      refine letIn bs body (fun b hb => ih b.2 ?_) (ih body (by simp at he; omega))
      have := List.sizeOf_lt_of_mem hb
      obtain ⟨x, e⟩ := b
      simp at he this ⊢; omega
    | quant q bs ts body => exact quant q bs ts body (ih body (by simp at he; omega))
    | lambda bs body => exact lambda bs body (ih body (by simp at he; omega))

end ContractLowering.IL
