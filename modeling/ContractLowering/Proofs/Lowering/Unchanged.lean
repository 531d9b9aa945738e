import ContractLowering.Proofs.IL.Semantics
import ContractLowering.Proofs.Lowering.Rename

/-!
# Expressions with one value in two states

`Unchanged old σ σ' a` says that `a` has the same value in the states `σ` and `σ'`. Building an
expression may give back a part of what it is applied to: a double negation or a box is cancelled,
and a conjunction of one operand is that operand. So the same is asked of these parts (`Core`), and
every way to build expressions that lowering uses keeps expressions unchanged.

An operand that is evaluated only under a condition has to be unchanged only where the condition
holds (`Unchanged.conj`, `Unchanged.disj`, `Unchanged.imp`, `Unchanged.cond`).
-/

namespace ContractLowering

open IL Source

/-- What building may give back in place of an expression. -/
inductive IL.Expr.Core : IL.Expr → IL.Expr → Prop where
  | refl (a : IL.Expr) : Core a a
  | boxed {s : Prelude.BoxSort} {a b : IL.Expr} (h : Core a b) : Core (.app s.boxName [a]) b
  | unboxed {s : Prelude.BoxSort} {a b : IL.Expr} (h : Core a b) : Core (.app s.unboxName [a]) b
  | not {a b : IL.Expr} (h : Core a b) : Core (.not a) b
  | single {op : MultiOp} {a b : IL.Expr} (h : Core a b) : Core (.multi op [a]) b

variable {M : Model} {old σ σ' : M.Valuation} {a b c : IL.Expr}

variable (old σ σ') in
/-- An expression has the same value in two states, and so have its parts that may be given back
in its place. -/
def Unchanged (a : IL.Expr) : Prop := ∀ b, a.Core b → b.eval old σ' = b.eval old σ

namespace Unchanged

theorem eval (h : Unchanged old σ σ' a) : a.eval old σ' = a.eval old σ := h a (.refl a)

theorem holds (h : Unchanged old σ σ' a) : Holds old σ' a ↔ Holds old σ a := by
  rw [Holds, Holds, h.eval]

theorem map_eval {as : List IL.Expr} (h : ∀ a ∈ as, Unchanged old σ σ' a) :
    as.map (·.eval old σ') = as.map (·.eval old σ) :=
  List.map_congr_left fun a ha => (h a ha).eval

/-! ## Leaves and operators -/

theorem bool (x : Bool) : Unchanged old σ σ' (.bool x) := by
  rintro b ⟨⟩
  rfl

theorem nat (n : Nat) : Unchanged old σ σ' (.nat n) := by
  rintro b ⟨⟩
  rfl

theorem var {x : String} (h : σ' x = σ x) : Unchanged old σ σ' (.var x) := by
  rintro b ⟨⟩
  exact h

theorem app {f : String} {as : List IL.Expr} (h : ∀ a ∈ as, Unchanged old σ σ' a) :
    Unchanged old σ σ' (.app f as) := by
  intro b hb
  cases hb with
  | refl => rw [Expr.eval_app, Expr.eval_app, map_eval h]
  | boxed hb => exact h _ (List.mem_singleton_self _) b hb
  | unboxed hb => exact h _ (List.mem_singleton_self _) b hb

theorem app₁ {f : String} (ha : Unchanged old σ σ' a) : Unchanged old σ σ' (.app f [a]) :=
  app (List.forall_mem_singleton.2 ha)

theorem app₂ {f : String} (ha : Unchanged old σ σ' a) (hb : Unchanged old σ σ' b) :
    Unchanged old σ σ' (.app f [a, b]) :=
  app (List.forall_mem_cons.2 ⟨ha, List.forall_mem_singleton.2 hb⟩)

theorem app₃ {f : String} (ha : Unchanged old σ σ' a) (hb : Unchanged old σ σ' b)
    (hc : Unchanged old σ σ' c) : Unchanged old σ σ' (.app f [a, b, c]) :=
  app (List.forall_mem_cons.2 ⟨ha, List.forall_mem_cons.2 ⟨hb, List.forall_mem_singleton.2 hc⟩⟩)

/-- An application whose arguments are not unchanged, of a function that is not cancelled. -/
theorem of_eval_app {f : String} {as : List IL.Expr}
    (hf : ∀ s : Prelude.BoxSort, s.boxName ≠ f ∧ s.unboxName ≠ f)
    (h : (IL.Expr.app f as).eval old σ' = (IL.Expr.app f as).eval old σ) :
    Unchanged old σ σ' (.app f as) := by
  intro b hb
  generalize happ : IL.Expr.app f as = e at hb h
  cases hb with
  | refl => exact h
  | boxed => exact absurd (IL.Expr.app.inj happ).1.symm (hf _).1
  | unboxed => exact absurd (IL.Expr.app.inj happ).1.symm (hf _).2
  | not => cases happ
  | single => cases happ

theorem binary {op : IL.BinOp} (ha : Unchanged old σ σ' a) (hb : Unchanged old σ σ' b) :
    Unchanged old σ σ' (.binary op a b) := by
  rintro c ⟨⟩
  rw [Expr.eval_binary, Expr.eval_binary, ha.eval, hb.eval]

theorem multi {op : MultiOp} {as : List IL.Expr} (h : ∀ a ∈ as, Unchanged old σ σ' a) :
    Unchanged old σ σ' (.multi op as) := by
  intro b hb
  cases hb with
  | refl => rw [Expr.eval_multi, Expr.eval_multi, map_eval h]
  | single hb => exact h _ (List.mem_singleton_self _) b hb

theorem multi₂ {op : MultiOp} (ha : Unchanged old σ σ' a) (hb : Unchanged old σ σ' b) :
    Unchanged old σ σ' (.multi op [a, b]) :=
  multi (List.forall_mem_cons.2 ⟨ha, List.forall_mem_singleton.2 hb⟩)

theorem neg (ha : Unchanged old σ σ' a) : Unchanged old σ σ' a.neg := by
  unfold Expr.neg
  split
  · exact bool _
  · exact fun b hb => ha b (.not hb)
  · intro b hb
    cases hb with
    | refl => rw [Expr.eval_not, Expr.eval_not, ha.eval]
    | not hb => exact ha b hb

theorem ne (ha : Unchanged old σ σ' a) (hb : Unchanged old σ σ' b) : Unchanged old σ σ' (.ne a b) :=
  (binary ha hb).neg

/-! ## Connectives -/

theorem conjOperand (ha : Unchanged old σ σ' a) (h : a.conjOperands = [b]) :
    Unchanged old σ σ' b := by
  unfold Expr.conjOperands at h
  split at h
  · cases h
  · obtain rfl := h
    exact fun c hc => ha c (.single hc)
  · obtain rfl := (List.cons.inj h).1
    exact ha

theorem disjOperand (ha : Unchanged old σ σ' a) (h : a.disjOperands = [b]) :
    Unchanged old σ σ' b := by
  unfold Expr.disjOperands at h
  split at h
  · cases h
  · obtain rfl := h
    exact fun c hc => ha c (.single hc)
  · obtain rfl := (List.cons.inj h).1
    exact ha

/-- Operands that are evaluated one after the other as long as a condition holds of each. -/
inductive Run (P : IL.Expr → Prop) (Q : IL.Expr → Prop) : List IL.Expr → Prop where
  | nil : Run P Q []
  | cons {a as} (ha : P a) (has : Q a → Run P Q as) : Run P Q (a :: as)

/-- Of operands of which one alone is left, the others say nothing. -/
theorem Run.of_flatMap {P Q : IL.Expr → Prop} {operands : IL.Expr → List IL.Expr}
    {as : List IL.Expr} (h : Run P Q as) (hQ : ∀ a, operands a = [] → Q a)
    (has : as.flatMap operands = [b]) : ∃ a, P a ∧ operands a = [b] := by
  induction h with
  | nil => cases has
  | @cons a as ha _ ih =>
    rw [List.flatMap_cons] at has
    rcases List.append_eq_cons_iff.1 has with ⟨hnil, hrest⟩ | ⟨l, hl, hrest⟩
    · exact ih (hQ a hnil) hrest
    · obtain rfl := (List.append_eq_nil_iff.1 hrest.symm).1
      exact ⟨a, ha, hl⟩

theorem run_conj_holds {as : List IL.Expr} (h : Run (Unchanged old σ σ') (Holds old σ) as) :
    (∀ a ∈ as, Holds old σ' a) ↔ ∀ a ∈ as, Holds old σ a := by
  induction h with
  | nil => simp
  | cons ha _ ih =>
    rw [List.forall_mem_cons, List.forall_mem_cons, ha.holds]
    exact and_congr_right fun hholds => ih hholds

theorem run_disj_holds {as : List IL.Expr}
    (h : Run (Unchanged old σ σ') (fun a => ¬ Holds old σ a) as) :
    (∃ a ∈ as, Holds old σ' a) ↔ ∃ a ∈ as, Holds old σ a := by
  induction h with
  | nil => simp
  | @cons a as ha _ ih =>
    rw [List.exists_mem_cons_iff, List.exists_mem_cons_iff, ha.holds]
    by_cases hholds : Holds old σ a
    · simp [hholds]
    · simp [hholds, ih hholds]

theorem of_holds_multi_and {as : List IL.Expr} (hlen : as.length ≠ 1)
    (h : (∀ a ∈ as, Holds old σ' a) ↔ ∀ a ∈ as, Holds old σ a) :
    Unchanged old σ σ' (.multi .and as) := by
  intro b hb
  cases hb with
  | refl =>
    rw [Expr.eval_multi, Expr.eval_multi, Model.multi, Model.multi]
    congr 1
    simpa [Holds] using h
  | single => simp at hlen

theorem of_holds_multi_or {as : List IL.Expr} (hlen : as.length ≠ 1)
    (h : (∃ a ∈ as, Holds old σ' a) ↔ ∃ a ∈ as, Holds old σ a) :
    Unchanged old σ σ' (.multi .or as) := by
  intro b hb
  cases hb with
  | refl =>
    rw [Expr.eval_multi, Expr.eval_multi, Model.multi, Model.multi]
    congr 1
    simpa [Holds] using h
  | single => simp at hlen

/-- A conjunction whose operands are evaluated as long as those before hold. -/
theorem conj {as : List IL.Expr} (h : Run (Unchanged old σ σ') (Holds old σ) as) :
    Unchanged old σ σ' (.conj as) := by
  have hholds : Holds old σ' (.conj as) ↔ Holds old σ (.conj as) := by
    rw [holds_conj, holds_conj, run_conj_holds h]
  unfold Expr.conj at hholds ⊢
  split
  · exact bool _
  rename_i hfalse
  rw [if_neg hfalse] at hholds
  generalize hos : as.flatMap Expr.conjOperands = os at hholds ⊢
  split
  · exact bool _
  · have hnothing : ∀ a : IL.Expr, a.conjOperands = [] → Holds old σ a :=
      fun a hnil => (holds_conjOperands a).1 (by simp [hnil])
    obtain ⟨a, ha, hsingle⟩ := h.of_flatMap hnothing hos
    exact ha.conjOperand hsingle
  · rename_i hnil hsingle
    refine of_holds_multi_and (fun hlen => ?_) (by simpa [holds_and] using hholds)
    obtain ⟨o, rfl⟩ := List.length_eq_one_iff.1 hlen
    exact hsingle o rfl

/-- A disjunction whose operands are evaluated as long as those before fail. -/
theorem disj {as : List IL.Expr} (h : Run (Unchanged old σ σ') (fun a => ¬ Holds old σ a) as) :
    Unchanged old σ σ' (.disj as) := by
  have hholds : Holds old σ' (.disj as) ↔ Holds old σ (.disj as) := by
    rw [holds_disj, holds_disj, run_disj_holds h]
  unfold Expr.disj at hholds ⊢
  split
  · exact bool _
  rename_i htrue
  rw [if_neg htrue] at hholds
  generalize hos : as.flatMap Expr.disjOperands = os at hholds ⊢
  split
  · exact bool _
  · have hnothing : ∀ a : IL.Expr, a.disjOperands = [] → ¬ Holds old σ a :=
      fun a hnil hholds => by simpa [hnil] using (holds_disjOperands a).2 hholds
    obtain ⟨a, ha, hsingle⟩ := h.of_flatMap hnothing hos
    exact ha.disjOperand hsingle
  · rename_i hnil hsingle
    refine of_holds_multi_or (fun hlen => ?_) (by simpa [holds_or] using hholds)
    obtain ⟨o, rfl⟩ := List.length_eq_one_iff.1 hlen
    exact hsingle o rfl

theorem run_conj {as : List IL.Expr} (h : ∀ a ∈ as, Unchanged old σ σ' a) {Q : IL.Expr → Prop} :
    Run (Unchanged old σ σ') Q as := by
  induction as with
  | nil => exact .nil
  | cons a as ih =>
    obtain ⟨ha, has⟩ := List.forall_mem_cons.1 h
    exact .cons ha fun _ => ih has

/-- An implication whose conclusion is evaluated where its premise holds. -/
theorem imp (ha : Unchanged old σ σ' a) (hb : Holds old σ a → Unchanged old σ σ' b) :
    Unchanged old σ σ' (.imp a b) := by
  unfold Expr.imp
  split
  · rename_i htrue
    rcases (Bool.or_eq_true _ _).mp htrue with htrue | htrue
    · exact hb (by rw [Expr.isTrue_iff.1 htrue]; exact holds_tt)
    · rw [Expr.isTrue_iff.1 htrue]
      exact bool _
  split
  · exact bool _
  split
  · exact ha.neg
  · rintro c ⟨⟩
    rw [Expr.eval_binary, Expr.eval_binary, Model.binary, Model.binary]
    congr 1
    exact propext (imp_congr_ctx ha.holds fun hholds => (hb hholds).holds)

/-- A conditional whose branches are evaluated where its condition selects them. -/
theorem cond (hc : Unchanged old σ σ' c) (ha : Holds old σ c → Unchanged old σ σ' a)
    (hb : ¬ Holds old σ c → Unchanged old σ σ' b) : Unchanged old σ σ' (.cond c a b) := by
  unfold Expr.cond
  split
  · rename_i htrue
    exact ha (by rw [Expr.isTrue_iff.1 htrue]; exact holds_tt)
  split
  · rename_i hfalse
    exact hb (by rw [Expr.isFalse_iff.1 hfalse]; exact holds_ff)
  · rintro d ⟨⟩
    rw [Expr.eval_ite, Expr.eval_ite, hc.eval]
    by_cases hholds : M.truth (c.eval old σ)
    · rw [if_pos hholds, if_pos hholds, (ha hholds).eval]
    · rw [if_neg hholds, if_neg hholds, (hb hholds).eval]

/-- A let binds the same values in both states. -/
theorem lets {bs : List (String × IL.Expr)} (hbs : ∀ p ∈ bs, Unchanged old σ σ' p.2)
    (ha : Unchanged old (Model.bind (bs.map fun p => (p.1, p.2.eval old σ)) σ)
      (Model.bind (bs.map fun p => (p.1, p.2.eval old σ)) σ') a) :
    Unchanged old σ σ' (.lets bs a) := by
  unfold Expr.lets
  split
  · rename_i hnil
    obtain rfl := List.isEmpty_iff.1 hnil
    exact ha
  · rintro b ⟨⟩
    have hvalues : bs.map (fun p => (p.1, p.2.eval old σ')) =
        bs.map fun p => (p.1, p.2.eval old σ) :=
      List.map_congr_left fun p hp => by rw [(hbs p hp).eval]
    rw [Expr.eval_letIn, Expr.eval_letIn, hvalues, ha.eval]

/-! ## Boxes -/

theorem box {t : Typ} (ha : Unchanged old σ σ' a) : Unchanged old σ σ' (Boxing.box t a) := by
  unfold Boxing.box
  cases t.boxSort? with
  | none => exact ha
  | some s =>
    cases hr : Boxing.applied? a with
    | none => exact app₁ ha
    | some r =>
      obtain ⟨s', inner, ⟨rfl, rfl⟩ | ⟨rfl, rfl⟩⟩ := Boxing.applied?_eq_some hr
      · exact ha
      · dsimp only
        split
        · exact fun b hb => ha b (.unboxed hb)
        · exact app₁ ha

theorem unbox {t : Typ} (ha : Unchanged old σ σ' a) : Unchanged old σ σ' (Boxing.unbox t a) := by
  unfold Boxing.unbox
  cases t.boxSort? with
  | none => exact ha
  | some s =>
    cases hr : Boxing.applied? a with
    | none => exact app₁ ha
    | some r =>
      obtain ⟨s', inner, ⟨rfl, rfl⟩ | ⟨rfl, rfl⟩⟩ := Boxing.applied?_eq_some hr
      · dsimp only
        split
        · exact fun b hb => ha b (.boxed hb)
        · exact app₁ ha
      · exact ha

theorem convert {s t : Typ} (ha : Unchanged old σ σ' a) :
    Unchanged old σ σ' (Boxing.convert s t a) := by
  unfold Boxing.convert Boxing.unboxTo Boxing.boxTo
  split
  · split
    · exact ha.box.unbox
    · exact ha.unbox
  · split
    · exact ha.box
    · exact ha

/-! ## Operators of the source -/

variable {env : Env}

theorem typedEq {t : Typ} (ha : Unchanged old σ σ' a) (hb : Unchanged old σ σ' b) :
    Unchanged old σ σ' (typedEq t a b) := by
  cases t with
  | set | multiset | seq | map => exact app₂ ha hb
  | _ => exact binary ha hb

theorem lowerMem {t : Typ} (ha : Unchanged old σ σ' a) (hb : Unchanged old σ σ' b)
    (hc : (lowerMem t a b).Returns env c) : Unchanged old σ σ' c := by
  cases t with
  | set | seq =>
    obtain rfl := ExprM.returns_pure.1 hc
    exact app₂ ha hb
  | multiset =>
    obtain rfl := ExprM.returns_pure.1 hc
    exact binary (nat 0) (app₂ ha hb)
  | map =>
    obtain rfl := ExprM.returns_pure.1 hc
    exact app₂ (app₁ ha) hb
  | _ => exact absurd hc ExprM.returns_broken

theorem collectionBelow {proper : Bool} {t : Typ} (ha : Unchanged old σ σ' a)
    (hb : Unchanged old σ σ' b) (hc : (collectionBelow proper t a b).Returns env c) :
    Unchanged old σ σ' c := by
  cases t with
  | set | multiset =>
    obtain rfl := ExprM.returns_pure.1 hc
    cases proper with
    | true => exact conj (.cons (app₂ ha hb) fun _ => .cons (neg (app₂ ha hb)) fun _ => .nil)
    | false => exact app₂ ha hb
  | seq =>
    obtain rfl := ExprM.returns_pure.1 hc
    cases proper <;>
      exact conj (.cons (binary (app₁ ha) (app₁ hb)) fun _ =>
        .cons (app₃ ha hb (app₁ ha)) fun _ => .nil)
  | _ => exact absurd hc ExprM.returns_broken

theorem lowerCompare {op : IL.BinOp} {proper swapped : Bool} {t : Typ} (ha : Unchanged old σ σ' a)
    (hb : Unchanged old σ σ' b) (hc : (lowerCompare op proper swapped t a b).Returns env c) :
    Unchanged old σ σ' c := by
  unfold ContractLowering.lowerCompare at hc
  split at hc
  · split at hc
    · exact collectionBelow hb ha hc
    · exact collectionBelow ha hb hc
  · obtain rfl := ExprM.returns_pure.1 hc
    exact binary ha hb

theorem lowerArith {op : MultiOp} {t : Typ} (ha : Unchanged old σ σ' a) (hb : Unchanged old σ σ' b)
    (hc : (lowerArith op t a b).Returns env c) : Unchanged old σ σ' c := by
  unfold ContractLowering.lowerArith at hc
  split at hc
  all_goals first
    | exact absurd hc ExprM.returns_broken
    | (obtain rfl := ExprM.returns_pure.1 hc
       first | exact app₂ ha hb | exact multi₂ ha hb)

/-- The operators that evaluate both operands. -/
theorem lowerBinary {op : Source.BinOp} {t₁ t₂ : Typ} (ha : Unchanged old σ σ' a)
    (hb : Unchanged old σ σ' b) (hc : (lowerBinary op t₁ t₂ a b).Returns env c) :
    Unchanged old σ σ' c := by
  cases op with
  | and =>
    obtain rfl := ExprM.returns_pure.1 hc
    exact conj (.cons ha fun _ => .cons hb fun _ => .nil)
  | or =>
    obtain rfl := ExprM.returns_pure.1 hc
    exact disj (.cons ha fun _ => .cons hb fun _ => .nil)
  | implies =>
    obtain rfl := ExprM.returns_pure.1 hc
    exact imp ha fun _ => hb
  | iff | div | mod =>
    obtain rfl := ExprM.returns_pure.1 hc
    exact binary ha hb
  | eq =>
    obtain rfl := ExprM.returns_pure.1 hc
    exact typedEq ha hb.convert
  | ne =>
    obtain rfl := ExprM.returns_pure.1 hc
    exact (typedEq ha hb.convert).neg
  | lt | le | gt | ge => exact lowerCompare ha hb hc
  | add | sub | mul => exact lowerArith ha hb hc
  | mem => exact lowerMem hb ha.box hc
  | notMem =>
    obtain ⟨m, hm, hc⟩ := ExprM.returns_bind.1 hc
    obtain rfl := ExprM.returns_pure.1 hc
    exact (lowerMem hb ha.box hm).neg
  | disjoint =>
    cases t₁ <;> obtain rfl := ExprM.returns_pure.1 hc <;> exact app₂ ha hb

theorem lowerUpdate {coll value : Typ} {d : IL.Expr} (ha : Unchanged old σ σ' a)
    (hb : Unchanged old σ σ' b) (hc : Unchanged old σ σ' c)
    (hd : (lowerUpdate coll value a b c).Returns env d) : Unchanged old σ σ' d := by
  cases coll with
  | seq elem =>
    obtain rfl := ExprM.returns_pure.1 hd
    exact app₃ ha hb hc.convert.box
  | map key mapped =>
    obtain rfl := ExprM.returns_pure.1 hd
    exact app₃ ha hb.box hc.convert.box
  | _ => exact absurd hd ExprM.returns_broken

theorem lowerCard {t : Typ} {size : IL.Expr → IL.Expr} (ha : Unchanged old σ σ' a)
    (hs : (lowerCard t).Returns env size) : Unchanged old σ σ' (size a) := by
  cases t with
  | set | multiset | seq | map =>
    obtain rfl := ExprM.returns_pure.1 hs
    exact app₁ ha
  | _ => exact absurd hs ExprM.returns_broken

theorem seqSlice {lo hi : Option IL.Expr} (ha : Unchanged old σ σ' a)
    (hlo : ∀ x ∈ lo, Unchanged old σ σ' x) (hhi : ∀ x ∈ hi, Unchanged old σ σ' x) :
    Unchanged old σ σ' (seqSlice a lo hi) := by
  cases lo with
  | none =>
    cases hi with
    | none => exact ha
    | some h => exact app₂ ha (hhi h rfl)
  | some l =>
    cases hi with
    | none => exact app₂ ha (hlo l rfl)
    | some h => exact app₂ (app₂ ha (hlo l rfl)) (multi₂ (hhi h rfl) (hlo l rfl))

theorem displayOps (kind : Collection) (ha : Unchanged old σ σ' a) (hb : Unchanged old σ σ' b) :
    Unchanged old σ σ' ((displayOps kind).2 a b) := by
  cases kind <;> exact app₂ ha hb

end Unchanged

end ContractLowering
