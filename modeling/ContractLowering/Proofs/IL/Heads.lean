import ContractLowering.IL.Build

/-!
# Applied functions

`e.heads` lists the functions that an expression applies, at any depth and in triggers too, and
`e.AppliesOnly P` says that all of them have a property. Building expressions applies no function
that the parts do not apply; folding may drop some.
-/

namespace ContractLowering.IL

mutual

/-- The functions that an expression applies, those of its triggers among them. -/
def Expr.heads : Expr → List String
  | .bool _ | .num _ | .var _ | .old _ => []
  | .app f args => f :: headsList args
  | .applyLambda _ f args => f.heads ++ headsList args
  | .not e => e.heads
  | .binary _ a b => a.heads ++ b.heads
  | .multi _ es => headsList es
  | .ite c a b => c.heads ++ a.heads ++ b.heads
  | .letIn bs body => headsBindings bs ++ body.heads
  | .quant _ _ ts body => headsTriggers ts ++ body.heads
  | .lambda _ body => body.heads

/-- The functions that several expressions apply. -/
def Expr.headsList : List Expr → List String
  | [] => []
  | e :: es => e.heads ++ headsList es

/-- The functions that the values of a let apply. -/
def Expr.headsBindings : List (String × Expr) → List String
  | [] => []
  | (_, e) :: rest => e.heads ++ headsBindings rest

/-- The functions that triggers apply. -/
def Expr.headsTriggers : List (List Expr) → List String
  | [] => []
  | t :: ts => headsList t ++ headsTriggers ts

end

/-- All functions that an expression applies have a property. -/
def Expr.AppliesOnly (P : String → Prop) (e : Expr) : Prop := ∀ f ∈ e.heads, P f

/-- The terms of triggers apply only functions with a property. -/
def Trigger.ApplyOnly (P : String → Prop) (ts : List Trigger) : Prop :=
  ∀ t ∈ ts, ∀ e ∈ t, e.AppliesOnly P

namespace Expr

variable {P Q : String → Prop} {f : String} {a b c o : Expr} {es : List Expr}
  {bindings : List (String × Expr)} {ts : List Trigger}

theorem mem_headsList : f ∈ headsList es ↔ ∃ e ∈ es, f ∈ e.heads := by
  induction es with
  | nil => simp [headsList]
  | cons e es ih => simp [headsList, ih]

theorem mem_headsBindings : f ∈ headsBindings bindings ↔ ∃ b ∈ bindings, f ∈ b.2.heads := by
  induction bindings with
  | nil => simp [headsBindings]
  | cons b bs ih => simp [headsBindings, ih]

theorem mem_headsTriggers : f ∈ headsTriggers ts ↔ ∃ t ∈ ts, ∃ e ∈ t, f ∈ e.heads := by
  induction ts with
  | nil => simp [headsTriggers]
  | cons t ts ih => simp [headsTriggers, mem_headsList, ih]

theorem AppliesOnly.mono (h : a.AppliesOnly P) (hPQ : ∀ f, P f → Q f) : a.AppliesOnly Q :=
  fun f hf => hPQ f (h f hf)

/-! ## The constructors -/

theorem appliesOnly_headsList :
    (∀ f ∈ headsList es, P f) ↔ ∀ e ∈ es, e.AppliesOnly P := by
  simp only [AppliesOnly, mem_headsList]
  exact ⟨fun h e he f hf => h f ⟨e, he, hf⟩, fun h f ⟨e, he, hf⟩ => h e he f hf⟩

@[simp] theorem appliesOnly_bool (v : Bool) : (bool v).AppliesOnly P := List.forall_mem_nil _

@[simp] theorem appliesOnly_num (digits : String) : (num digits).AppliesOnly P :=
  List.forall_mem_nil _

@[simp] theorem appliesOnly_var (x : String) : (var x).AppliesOnly P := List.forall_mem_nil _

@[simp] theorem appliesOnly_app :
    (app f es).AppliesOnly P ↔ P f ∧ ∀ e ∈ es, e.AppliesOnly P := by
  rw [AppliesOnly, heads, List.forall_mem_cons, appliesOnly_headsList]

@[simp] theorem appliesOnly_binary {op : BinOp} :
    (binary op a b).AppliesOnly P ↔ a.AppliesOnly P ∧ b.AppliesOnly P :=
  List.forall_mem_append

@[simp] theorem appliesOnly_multi {op : MultiOp} :
    (multi op es).AppliesOnly P ↔ ∀ e ∈ es, e.AppliesOnly P :=
  appliesOnly_headsList

@[simp] theorem appliesOnly_lambda {bs : List Binder} :
    (lambda bs a).AppliesOnly P ↔ a.AppliesOnly P := Iff.rfl

@[simp] theorem appliesOnly_ite :
    (ite c a b).AppliesOnly P ↔ c.AppliesOnly P ∧ a.AppliesOnly P ∧ b.AppliesOnly P := by
  simp only [AppliesOnly, heads, List.forall_mem_append, and_assoc]

/-! ## What is built -/

@[simp] theorem appliesOnly_nat (n : Nat) : (nat n).AppliesOnly P := appliesOnly_num _

@[simp] theorem heads_neg (a : Expr) : a.neg.heads = a.heads := by
  unfold neg
  split <;> rfl

@[simp] theorem appliesOnly_neg : a.neg.AppliesOnly P ↔ a.AppliesOnly P := by
  rw [AppliesOnly, heads_neg, AppliesOnly]

@[simp] theorem appliesOnly_eq :
    (eq a b).AppliesOnly P ↔ a.AppliesOnly P ∧ b.AppliesOnly P := appliesOnly_binary

@[simp] theorem appliesOnly_ne :
    (ne a b).AppliesOnly P ↔ a.AppliesOnly P ∧ b.AppliesOnly P :=
  appliesOnly_neg.trans appliesOnly_eq

@[simp] theorem appliesOnly_le :
    (le a b).AppliesOnly P ↔ a.AppliesOnly P ∧ b.AppliesOnly P := appliesOnly_binary

@[simp] theorem appliesOnly_lt :
    (lt a b).AppliesOnly P ↔ a.AppliesOnly P ∧ b.AppliesOnly P := appliesOnly_binary

@[simp] theorem appliesOnly_sub :
    (sub a b).AppliesOnly P ↔ a.AppliesOnly P ∧ b.AppliesOnly P := by
  rw [sub, appliesOnly_multi, List.forall_mem_cons, List.forall_mem_singleton]

theorem AppliesOnly.conjOperand (h : a.AppliesOnly P) (ho : o ∈ a.conjOperands) :
    o.AppliesOnly P := by
  unfold conjOperands at ho
  split at ho
  · cases ho
  · exact appliesOnly_multi.1 h o ho
  · rwa [List.mem_singleton.1 ho]

theorem AppliesOnly.disjOperand (h : a.AppliesOnly P) (ho : o ∈ a.disjOperands) :
    o.AppliesOnly P := by
  unfold disjOperands at ho
  split at ho
  · cases ho
  · exact appliesOnly_multi.1 h o ho
  · rwa [List.mem_singleton.1 ho]

theorem AppliesOnly.conj (h : ∀ e ∈ es, e.AppliesOnly P) : (conj es).AppliesOnly P := by
  have hoperands : ∀ o ∈ es.flatMap conjOperands, o.AppliesOnly P := by
    intro o ho
    obtain ⟨e, he, ho⟩ := List.mem_flatMap.1 ho
    exact (h e he).conjOperand ho
  unfold Expr.conj
  split
  · exact appliesOnly_bool _
  · split
    · exact appliesOnly_bool _
    · rename_i e heq
      exact hoperands e (by simp [heq])
    · exact appliesOnly_multi.2 hoperands

theorem AppliesOnly.conj₂ (ha : a.AppliesOnly P) (hb : b.AppliesOnly P) :
    (Expr.conj [a, b]).AppliesOnly P :=
  .conj (List.forall_mem_cons.2 ⟨ha, List.forall_mem_singleton.2 hb⟩)

theorem AppliesOnly.conj₃ (ha : a.AppliesOnly P) (hb : b.AppliesOnly P) (hc : c.AppliesOnly P) :
    (Expr.conj [a, b, c]).AppliesOnly P :=
  .conj (List.forall_mem_cons.2 ⟨ha, List.forall_mem_cons.2 ⟨hb, List.forall_mem_singleton.2 hc⟩⟩)

theorem AppliesOnly.disj (h : ∀ e ∈ es, e.AppliesOnly P) : (disj es).AppliesOnly P := by
  have hoperands : ∀ o ∈ es.flatMap disjOperands, o.AppliesOnly P := by
    intro o ho
    obtain ⟨e, he, ho⟩ := List.mem_flatMap.1 ho
    exact (h e he).disjOperand ho
  unfold Expr.disj
  split
  · exact appliesOnly_bool _
  · split
    · exact appliesOnly_bool _
    · rename_i e heq
      exact hoperands e (by simp [heq])
    · exact appliesOnly_multi.2 hoperands

theorem AppliesOnly.disj₂ (ha : a.AppliesOnly P) (hb : b.AppliesOnly P) :
    (Expr.disj [a, b]).AppliesOnly P :=
  .disj (List.forall_mem_cons.2 ⟨ha, List.forall_mem_singleton.2 hb⟩)

theorem AppliesOnly.imp (ha : a.AppliesOnly P) (hb : b.AppliesOnly P) : (imp a b).AppliesOnly P := by
  unfold Expr.imp
  split
  · exact hb
  · split
    · exact appliesOnly_bool _
    · split
      · exact appliesOnly_neg.2 ha
      · exact appliesOnly_binary.2 ⟨ha, hb⟩

theorem AppliesOnly.cond (hc : c.AppliesOnly P) (ha : a.AppliesOnly P) (hb : b.AppliesOnly P) :
    (cond c a b).AppliesOnly P := by
  unfold Expr.cond
  split
  · exact ha
  · split
    · exact hb
    · exact appliesOnly_ite.2 ⟨hc, ha, hb⟩

theorem AppliesOnly.lets (hbs : ∀ u ∈ bindings, u.2.AppliesOnly P) (ha : a.AppliesOnly P) :
    (lets bindings a).AppliesOnly P := by
  unfold Expr.lets
  split
  · exact ha
  · refine List.forall_mem_append.2 ⟨fun f hf => ?_, ha⟩
    obtain ⟨u, hu, hf⟩ := mem_headsBindings.1 hf
    exact hbs u hu f hf

theorem AppliesOnly.quantify {q : Quantifier} {bs : List Binder} (hts : Trigger.ApplyOnly P ts)
    (ha : a.AppliesOnly P) : (quantify q bs ts a).AppliesOnly P := by
  unfold Expr.quantify
  split
  · exact ha
  · refine List.forall_mem_append.2 ⟨fun f hf => ?_, ha⟩
    obtain ⟨t, ht, e, he, hf⟩ := mem_headsTriggers.1 hf
    exact hts t ht e he f hf

theorem AppliesOnly.all {bs : List Binder} (hts : Trigger.ApplyOnly P ts) (ha : a.AppliesOnly P) :
    (all bs ts a).AppliesOnly P := .quantify hts ha

theorem AppliesOnly.ex {bs : List Binder} (hts : Trigger.ApplyOnly P ts) (ha : a.AppliesOnly P) :
    (ex bs ts a).AppliesOnly P := .quantify hts ha

end Expr

namespace Trigger.ApplyOnly

variable {P : String → Prop} {t : Expr}

theorem nil : ApplyOnly P [] := List.forall_mem_nil _

/-- A single trigger of one term. -/
theorem single (h : t.AppliesOnly P) : ApplyOnly P [[t]] :=
  List.forall_mem_singleton.2 (List.forall_mem_singleton.2 h)

end Trigger.ApplyOnly

end ContractLowering.IL
