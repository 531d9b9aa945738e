import ContractLowering.Proofs.IL.Build
import Mathlib.Algebra.BigOperators.Group.List.Basic
import Mathlib.Algebra.Ring.Int.Defs
import Mathlib.Logic.Function.Basic

/-!
# Meaning of expressions

A `Model` interprets sorts as sets of values, functions as operations on them, and gives lambdas
some value; Booleans and integers are what they are. Constants and variables share one name
space, so both get their values from a valuation. `Expr.eval` is the value of an expression and
`Holds` says that a formula is true.

Models are not sorted beyond what quantifiers range over: what holds in all of them holds in
every sorted one.
-/

namespace ContractLowering.IL

/-- An interpretation of sorts and functions. What dividing by zero gives is up to the model. -/
structure Model where
  Val : Type
  ofProp : Prop → Val
  truth : Val → Prop
  truth_ofProp : ∀ p, truth (ofProp p) ↔ p
  ofInt : Int → Val
  toInt : Val → Int
  toInt_ofInt : ∀ n, toInt (ofInt n) = n
  carrier : Srt → Val → Prop
  carrier_bool : ∀ a, carrier .bool a ↔ ∃ p, a = ofProp p
  carrier_int : ∀ a, carrier .int a ↔ ∃ n, a = ofInt n
  app : String → List Val → Val
  lam : (List Val → Val) → Val
  applyLam : Srt → Val → List Val → Val
  divZero : Int → Int
  modZero : Int → Int

namespace Model

attribute [simp] truth_ofProp toInt_ofInt

variable (M : Model)

/-- Values for names. -/
abbrev Valuation : Type := String → M.Val

variable {M}

/-- A valuation with names bound, of which later ones hide earlier ones. -/
def bind (l : List (String × M.Val)) (ρ : M.Valuation) : M.Valuation :=
  l.foldl (fun ρ p => Function.update ρ p.1 p.2) ρ

/-- A valuation differs from another by values that binders may take. -/
def Assigns (bs : List Binder) (ρ ρ' : M.Valuation) : Prop :=
  ∃ as, List.Forall₂ (fun b a => M.carrier b.2 a) bs as ∧ ρ' = bind ((bs.map (·.1)).zip as) ρ

variable (M)

/-- Integer division, where the quotient leaves a remainder that is not negative. -/
def div (a b : Int) : Int := if b = 0 then M.divZero a else a / b

/-- The remainder of integer division. -/
def mod (a b : Int) : Int := if b = 0 then M.modZero a else a % b

/-- The value of an operator at the values of its two operands. -/
def binary (op : BinOp) (a b : M.Val) : M.Val :=
  match op with
  | .implies => M.ofProp (M.truth a → M.truth b)
  | .eq => M.ofProp (a = b)
  | .le => M.ofProp (M.toInt a ≤ M.toInt b)
  | .ge => M.ofProp (M.toInt a ≥ M.toInt b)
  | .lt => M.ofProp (M.toInt a < M.toInt b)
  | .gt => M.ofProp (M.toInt a > M.toInt b)
  | .div => M.ofInt (M.div (M.toInt a) (M.toInt b))
  | .mod => M.ofInt (M.mod (M.toInt a) (M.toInt b))

/-- A difference, which with one operand is its negation. -/
def sub : List Int → Int
  | [] => 0
  | [a] => -a
  | a :: as => a - as.sum

/-- The value of an operator at the values of its operands. -/
def multi (op : MultiOp) (as : List M.Val) : M.Val :=
  match op with
  | .and => M.ofProp (∀ a ∈ as, M.truth a)
  | .or => M.ofProp (∃ a ∈ as, M.truth a)
  | .add => M.ofInt (as.map M.toInt).sum
  | .sub => M.ofInt (sub (as.map M.toInt))
  | .mul => M.ofInt (as.map M.toInt).prod
  | .distinct => M.ofProp as.Nodup

end Model

variable {M : Model}

open Classical in
mutual

/-- The value of an expression. `old` gives the values of global variables on entry. A lambda says
nothing about argument lists of a wrong length. -/
noncomputable def Expr.eval (old : M.Valuation) : Expr → M.Valuation → M.Val
  | .bool b, _ => M.ofProp (b = true)
  | .num digits, _ => M.ofInt (Nat.ofDigitChars 10 digits.toList 0)
  | .var x, ρ => ρ x
  | .old x, _ => old x
  | .app f args, ρ => M.app f (evalList old args ρ)
  | .applyLambda s f args, ρ => M.applyLam s (f.eval old ρ) (evalList old args ρ)
  | .not e, ρ => M.ofProp (¬ M.truth (e.eval old ρ))
  | .binary op a b, ρ => M.binary op (a.eval old ρ) (b.eval old ρ)
  | .multi op es, ρ => M.multi op (evalList old es ρ)
  | .ite c t e, ρ => if M.truth (c.eval old ρ) then t.eval old ρ else e.eval old ρ
  | .letIn bindings body, ρ => body.eval old (Model.bind (evalBindings old bindings ρ) ρ)
  | .quant .all bs _ body, ρ =>
    M.ofProp (∀ ρ', Model.Assigns bs ρ ρ' → M.truth (body.eval old ρ'))
  | .quant .ex bs _ body, ρ =>
    M.ofProp (∃ ρ', Model.Assigns bs ρ ρ' ∧ M.truth (body.eval old ρ'))
  | .lambda bs body, ρ => M.lam fun as =>
    if bs.length = as.length then body.eval old (Model.bind ((bs.map (·.1)).zip as) ρ)
    else M.ofProp False

/-- The values of several expressions. -/
noncomputable def Expr.evalList (old : M.Valuation) : List Expr → M.Valuation → List M.Val
  | [], _ => []
  | e :: es, ρ => e.eval old ρ :: evalList old es ρ

/-- The values of the bindings of a let. -/
noncomputable def Expr.evalBindings (old : M.Valuation) :
    List (String × Expr) → M.Valuation → List (String × M.Val)
  | [], _ => []
  | (x, e) :: rest, ρ => (x, e.eval old ρ) :: evalBindings old rest ρ

end

/-- A formula is true. -/
def Holds (old ρ : M.Valuation) (e : Expr) : Prop := M.truth (e.eval old ρ)

/-! ## Binding names -/

namespace Model

variable {l : List (String × M.Val)} {ρ ρ' : M.Valuation} {x : String}

@[simp] theorem bind_nil : bind [] ρ = ρ := rfl

@[simp] theorem bind_cons {p : String × M.Val} :
    bind (p :: l) ρ = bind l (Function.update ρ p.1 p.2) := rfl

/-- A name that is not bound keeps its value. -/
theorem bind_of_notMem (h : x ∉ l.map (·.1)) : bind l ρ x = ρ x := by
  induction l generalizing ρ with
  | nil => rfl
  | cons p l ih =>
    simp only [List.map_cons, List.mem_cons, not_or] at h
    rw [bind_cons, ih h.2, Function.update_of_ne h.1]

/-- A name that is bound has a value that does not depend on what it was before. -/
theorem bind_of_mem (h : x ∈ l.map (·.1)) : bind l ρ x = bind l ρ' x := by
  induction l generalizing ρ ρ' with
  | nil => simp at h
  | cons p l ih =>
    rw [bind_cons, bind_cons]
    by_cases hl : x ∈ l.map (·.1)
    · exact ih hl
    · rw [bind_of_notMem hl, bind_of_notMem hl]
      obtain rfl : x = p.1 := by simpa [hl] using h
      simp

@[simp] theorem assigns_nil : Assigns [] ρ ρ' ↔ ρ' = ρ := by
  simp [Assigns]

theorem assigns_cons {b : Binder} {bs : List Binder} :
    Assigns (b :: bs) ρ ρ' ↔
      ∃ a, M.carrier b.2 a ∧ Assigns bs (Function.update ρ b.1 a) ρ' := by
  constructor
  · rintro ⟨as, has, rfl⟩
    obtain ⟨a, rest, ha, hrest, rfl⟩ := List.forall₂_cons_left_iff.1 has
    exact ⟨a, ha, rest, hrest, rfl⟩
  · rintro ⟨a, ha, as, has, rfl⟩
    exact ⟨a :: as, .cons ha has, rfl⟩

/-- What is not bound keeps its value. -/
theorem Assigns.of_notMem {bs : List Binder} (h : Assigns bs ρ ρ') (hx : x ∉ bs.map (·.1)) :
    ρ' x = ρ x := by
  obtain ⟨as, has, rfl⟩ := h
  refine bind_of_notMem fun hmem => hx ?_
  rwa [List.map_fst_zip (by simp [has.length_eq])] at hmem

/-- A valuation gives variables the values that they have, if these are of their sorts. -/
theorem Assigns.self {bs : List Binder} (h : ∀ b ∈ bs, M.carrier b.2 (ρ b.1)) : Assigns bs ρ ρ := by
  induction bs with
  | nil => exact assigns_nil.2 rfl
  | cons b bs ih =>
    refine assigns_cons.2 ⟨ρ b.1, h b (by simp), ?_⟩
    rw [Function.update_eq_self]
    exact ih fun d hd => h d (by simp [hd])

/-- A name that is not bound may be set before or after. -/
theorem bind_update {a : M.Val} (h : x ∉ l.map (·.1)) :
    bind l (Function.update ρ x a) = Function.update (bind l ρ) x a := by
  induction l generalizing ρ with
  | nil => rfl
  | cons p l ih =>
    simp only [List.map_cons, List.mem_cons, not_or] at h
    rw [bind_cons, bind_cons, Function.update_comm h.1, ih h.2]

theorem Assigns.set {bs : List Binder} {a : M.Val} (h : Assigns bs ρ ρ') (hx : x ∉ bs.map (·.1)) :
    Assigns bs (Function.update ρ x a) (Function.update ρ' x a) := by
  obtain ⟨as, has, rfl⟩ := h
  refine ⟨as, has, (bind_update ?_).symm⟩
  rwa [List.map_fst_zip (by simp [has.length_eq])]

/-- Values for binders in a state with another value for a name that they do not bind. -/
theorem Assigns.unset {bs : List Binder} {a : M.Val} {σ : M.Valuation}
    (h : Assigns bs (Function.update ρ x a) σ) (hx : x ∉ bs.map (·.1)) :
    ∃ ρ', Assigns bs ρ ρ' ∧ σ = Function.update ρ' x a := by
  obtain ⟨as, has, rfl⟩ := h
  refine ⟨_, ⟨as, has, rfl⟩, bind_update ?_⟩
  rwa [List.map_fst_zip (by simp [has.length_eq])]

/-- Distinct variables have values of their sorts. -/
theorem Assigns.carrier {bs : List Binder} (h : Assigns bs ρ ρ') (hbs : (bs.map (·.1)).Nodup)
    {b : Binder} (hb : b ∈ bs) : M.carrier b.2 (ρ' b.1) := by
  induction bs generalizing ρ with
  | nil => simp at hb
  | cons d bs ih =>
    obtain ⟨a, ha, h⟩ := assigns_cons.1 h
    obtain ⟨hd, hbs⟩ := List.nodup_cons.1 hbs
    rcases List.mem_cons.1 hb with rfl | hb
    · rw [h.of_notMem hd, Function.update_self]
      exact ha
    · exact ih h hbs hb

end Model

/-! ## Values of compound expressions -/

namespace Expr

variable {old ρ : M.Valuation}

theorem evalList_eq (es : List Expr) : evalList old es ρ = es.map (·.eval old ρ) := by
  induction es with
  | nil => rfl
  | cons e es ih => exact congrArg (e.eval old ρ :: ·) ih

theorem evalBindings_eq (bs : List (String × Expr)) :
    evalBindings old bs ρ = bs.map fun b => (b.1, b.2.eval old ρ) := by
  induction bs with
  | nil => rfl
  | cons b bs ih => exact congrArg ((b.1, b.2.eval old ρ) :: ·) ih

@[simp] theorem eval_var (x : String) : (var x).eval old ρ = ρ x := rfl

theorem eval_not (e : Expr) : (not e).eval old ρ = M.ofProp (¬ M.truth (e.eval old ρ)) := rfl

theorem eval_binary (op : BinOp) (a b : Expr) :
    (binary op a b).eval old ρ = M.binary op (a.eval old ρ) (b.eval old ρ) := rfl

theorem eval_multi (op : MultiOp) (es : List Expr) :
    (multi op es).eval old ρ = M.multi op (es.map (·.eval old ρ)) :=
  congrArg (M.multi op) (evalList_eq es)

theorem eval_applyLambda (s : Srt) (f : Expr) (args : List Expr) :
    (applyLambda s f args).eval old ρ =
      M.applyLam s (f.eval old ρ) (args.map (·.eval old ρ)) :=
  congrArg (M.applyLam s (f.eval old ρ)) (evalList_eq args)

open Classical in
theorem eval_ite (c a b : Expr) : (ite c a b).eval old ρ =
    if M.truth (c.eval old ρ) then a.eval old ρ else b.eval old ρ := rfl

theorem eval_all (bs : List Binder) (ts : List Trigger) (body : Expr) :
    (quant .all bs ts body).eval old ρ =
      M.ofProp (∀ ρ', Model.Assigns bs ρ ρ' → M.truth (body.eval old ρ')) := rfl

theorem eval_ex (bs : List Binder) (ts : List Trigger) (body : Expr) :
    (quant .ex bs ts body).eval old ρ =
      M.ofProp (∃ ρ', Model.Assigns bs ρ ρ' ∧ M.truth (body.eval old ρ')) := rfl

theorem eval_lambda (bs : List Binder) (body : Expr) :
    (lambda bs body).eval old ρ = M.lam fun as =>
      if bs.length = as.length then body.eval old (Model.bind ((bs.map (·.1)).zip as) ρ)
      else M.ofProp False := rfl

@[simp] theorem eval_nat (n : Nat) : (nat n).eval old ρ = M.ofInt n := by
  show M.ofInt _ = _
  simp

@[simp] theorem eval_app (f : String) (args : List Expr) :
    (app f args).eval old ρ = M.app f (args.map (·.eval old ρ)) :=
  congrArg (M.app f) (evalList_eq args)

theorem eval_letIn (bs : List (String × Expr)) (body : Expr) :
    (letIn bs body).eval old ρ =
      body.eval old (Model.bind (bs.map fun b => (b.1, b.2.eval old ρ)) ρ) := by
  rw [← evalBindings_eq]
  rfl

/-- A let binds the values of its bindings. -/
@[simp] theorem eval_lets (bs : List (String × Expr)) (body : Expr) :
    (lets bs body).eval old ρ =
      body.eval old (Model.bind (bs.map fun b => (b.1, b.2.eval old ρ)) ρ) := by
  unfold lets
  cases bs with
  | nil => rfl
  | cons b bs => simpa using eval_letIn (b :: bs) body

@[simp] theorem eval_eq (a b : Expr) :
    (eq a b).eval old ρ = M.ofProp (a.eval old ρ = b.eval old ρ) := by
  rw [eq, eval_binary, Model.binary]

@[simp] theorem eval_lt (a b : Expr) :
    (lt a b).eval old ρ = M.ofProp (M.toInt (a.eval old ρ) < M.toInt (b.eval old ρ)) := by
  rw [lt, eval_binary, Model.binary]

@[simp] theorem eval_le (a b : Expr) :
    (le a b).eval old ρ = M.ofProp (M.toInt (a.eval old ρ) ≤ M.toInt (b.eval old ρ)) := by
  rw [le, eval_binary, Model.binary]

end Expr

/-! ## Truth of formulas -/

section

variable {old ρ : M.Valuation}

open Expr

@[simp] theorem holds_bool (b : Bool) : Holds old ρ (.bool b) ↔ b = true := by
  exact M.truth_ofProp _

@[simp] theorem holds_tt : Holds old ρ tt := by simp [tt]

@[simp] theorem holds_ff : ¬ Holds old ρ ff := by simp [ff]

@[simp] theorem holds_not (e : Expr) : Holds old ρ (.not e) ↔ ¬ Holds old ρ e := by
  rw [Holds, eval_not, M.truth_ofProp]; rfl

@[simp] theorem holds_eq (a b : Expr) :
    Holds old ρ (.eq a b) ↔ a.eval old ρ = b.eval old ρ := by
  simp [Holds]

@[simp] theorem holds_lt (a b : Expr) :
    Holds old ρ (.lt a b) ↔ M.toInt (a.eval old ρ) < M.toInt (b.eval old ρ) := by
  simp [Holds]

@[simp] theorem holds_le (a b : Expr) :
    Holds old ρ (.le a b) ↔ M.toInt (a.eval old ρ) ≤ M.toInt (b.eval old ρ) := by
  simp [Holds]

theorem holds_app (f : String) (args : List Expr) :
    Holds old ρ (.app f args) ↔ M.truth (M.app f (args.map (·.eval old ρ))) := by
  simp [Holds]

theorem holds_implies (a b : Expr) :
    Holds old ρ (.binary .implies a b) ↔ (Holds old ρ a → Holds old ρ b) := by
  rw [Holds, eval_binary, Model.binary, M.truth_ofProp]; rfl

theorem holds_and (es : List Expr) :
    Holds old ρ (.multi .and es) ↔ ∀ e ∈ es, Holds old ρ e := by
  rw [Holds, eval_multi, Model.multi, M.truth_ofProp]
  simp [Holds]

theorem holds_or (es : List Expr) :
    Holds old ρ (.multi .or es) ↔ ∃ e ∈ es, Holds old ρ e := by
  rw [Holds, eval_multi, Model.multi, M.truth_ofProp]
  simp [Holds]

@[simp] theorem holds_neg (e : Expr) : Holds old ρ e.neg ↔ ¬ Holds old ρ e := by
  unfold neg
  split
  · simp
  · simp
  · simp

/-- The operands of a conjunct say what it says. -/
theorem holds_conjOperands (e : Expr) :
    (∀ o ∈ e.conjOperands, Holds old ρ o) ↔ Holds old ρ e := by
  unfold conjOperands
  split
  · simp
  · rw [holds_and]
  · simp

theorem holds_disjOperands (e : Expr) :
    (∃ o ∈ e.disjOperands, Holds old ρ o) ↔ Holds old ρ e := by
  unfold disjOperands
  split
  · simp
  · rw [holds_or]
  · simp

/-- A conjunction says what all its conjuncts say. -/
@[simp] theorem holds_conj (es : List Expr) :
    Holds old ρ (conj es) ↔ ∀ e ∈ es, Holds old ρ e := by
  have operands : (∀ o ∈ es.flatMap conjOperands, Holds old ρ o) ↔ ∀ e ∈ es, Holds old ρ e := by
    simp only [List.mem_flatMap, forall_exists_index, and_imp]
    constructor
    · exact fun h e he => (holds_conjOperands e).1 fun o ho => h o e he ho
    · exact fun h o e he ho => (holds_conjOperands e).2 (h e he) o ho
  unfold conj
  split
  · rename_i hfalse
    obtain ⟨e, he, hf⟩ := List.any_eq_true.1 hfalse
    refine iff_of_false holds_ff fun h => ?_
    rw [isFalse_iff.1 hf] at he
    exact holds_ff (h _ he)
  · rw [← operands]
    split <;> rename_i h
    · simp [h]
    · simp [h]
    · rw [holds_and]

/-- A disjunction says what one of its disjuncts says. -/
@[simp] theorem holds_disj (es : List Expr) :
    Holds old ρ (disj es) ↔ ∃ e ∈ es, Holds old ρ e := by
  have operands : (∃ o ∈ es.flatMap disjOperands, Holds old ρ o) ↔ ∃ e ∈ es, Holds old ρ e := by
    simp only [List.mem_flatMap]
    constructor
    · rintro ⟨o, ⟨e, he, ho⟩, h⟩
      exact ⟨e, he, (holds_disjOperands e).1 ⟨o, ho, h⟩⟩
    · rintro ⟨e, he, h⟩
      obtain ⟨o, ho, h⟩ := (holds_disjOperands e).2 h
      exact ⟨o, ⟨e, he, ho⟩, h⟩
  unfold disj
  split
  · rename_i htrue
    obtain ⟨e, he, ht⟩ := List.any_eq_true.1 htrue
    rw [isTrue_iff.1 ht] at he
    exact iff_of_true holds_tt ⟨_, he, holds_tt⟩
  · rw [← operands]
    split <;> rename_i h
    · simp [h]
    · simp [h]
    · rw [holds_or]

@[simp] theorem holds_imp (a b : Expr) :
    Holds old ρ (imp a b) ↔ (Holds old ρ a → Holds old ρ b) := by
  unfold imp
  split
  · rename_i h
    rcases (Bool.or_eq_true _ _).mp h with h | h
    · simp [isTrue_iff.1 h]
    · simp [isTrue_iff.1 h]
  split
  · rename_i h; simp [isFalse_iff.1 h]
  split
  · rename_i h; simp [isFalse_iff.1 h]
  · exact holds_implies a b

/-- The value of a conditional is that of the branch its condition selects. -/
theorem eval_cond (c a b : Expr) [Decidable (Holds old ρ c)] :
    (Expr.cond c a b).eval old ρ = if Holds old ρ c then a.eval old ρ else b.eval old ρ := by
  unfold Expr.cond
  split
  · rename_i h; simp [isTrue_iff.1 h]
  split
  · rename_i h; simp [isFalse_iff.1 h]
  · rw [eval_ite]
    split <;> split <;> simp_all [Holds]

@[simp] theorem holds_cond (c a b : Expr) :
    Holds old ρ (Expr.cond c a b) ↔
      (Holds old ρ c → Holds old ρ a) ∧ (¬ Holds old ρ c → Holds old ρ b) := by
  classical
  rw [Holds, eval_cond]
  by_cases h : Holds old ρ c
  · rw [if_pos h]; exact ⟨fun ha => ⟨fun _ => ha, fun hc => absurd h hc⟩, fun hab => hab.1 h⟩
  · rw [if_neg h]; exact ⟨fun hb => ⟨fun hc => absurd hc h, fun _ => hb⟩, fun hab => hab.2 h⟩

@[simp] theorem holds_lets (bs : List (String × Expr)) (body : Expr) :
    Holds old ρ (lets bs body) ↔
      Holds old (Model.bind (bs.map fun b => (b.1, b.2.eval old ρ)) ρ) body := by
  rw [Holds, eval_lets]; rfl

@[simp] theorem holds_all (bs : List Binder) (ts : List Trigger) (body : Expr) :
    Holds old ρ (all bs ts body) ↔ ∀ ρ', Model.Assigns bs ρ ρ' → Holds old ρ' body := by
  unfold all quantify
  cases bs with
  | nil => simp
  | cons b bs => rw [List.isEmpty_cons, if_neg (by simp), Holds, eval_all, M.truth_ofProp]; rfl

@[simp] theorem holds_ex (bs : List Binder) (ts : List Trigger) (body : Expr) :
    Holds old ρ (ex bs ts body) ↔ ∃ ρ', Model.Assigns bs ρ ρ' ∧ Holds old ρ' body := by
  unfold ex quantify
  cases bs with
  | nil => simp
  | cons b bs => rw [List.isEmpty_cons, if_neg (by simp), Holds, eval_ex, M.truth_ofProp]; rfl

end

end ContractLowering.IL
