import ContractLowering.Proofs.IL.Recursor
import ContractLowering.Proofs.IL.Semantics

/-!
# Renaming variables

`Expr.ren` renames the free variables of an expression and forgets its triggers. Building
expressions commutes with it, because the folding constructors look at constants and operators
only. `Renames` relates an expression to a renamed copy that may have other triggers; where no
binder captures a new name, the copy has the value of the original under the renamed valuation
(`Renames.eval`).
-/

namespace ContractLowering.IL

/-- A renaming below binders, whose names stay. -/
def keep (xs : List String) (f : String → String) (x : String) : String :=
  if x ∈ xs then x else f x

@[simp] theorem keep_id (xs : List String) : keep xs id = id := by
  funext x
  simp [keep]

theorem keep_of_mem {xs : List String} {f : String → String} {x : String} (h : x ∈ xs) :
    keep xs f x = x := if_pos h

theorem keep_of_notMem {xs : List String} {f : String → String} {x : String} (h : x ∉ xs) :
    keep xs f x = f x := if_neg h

/-- What a renaming fixes is fixed below binders too. -/
theorem keep_of_fixed {xs : List String} {f : String → String} {x : String} (h : f x = x) :
    keep xs f x = x := by
  unfold keep
  split
  · rfl
  · exact h

mutual

/-- The expression with its free variables renamed and its triggers removed. -/
def Expr.ren (f : String → String) : Expr → Expr
  | .bool b => .bool b
  | .num d => .num d
  | .var x => .var (f x)
  | .old x => .old x
  | .app g args => .app g (renList f args)
  | .applyLambda s g args => .applyLambda s (g.ren f) (renList f args)
  | .not e => .not (e.ren f)
  | .binary op a b => .binary op (a.ren f) (b.ren f)
  | .multi op es => .multi op (renList f es)
  | .ite c a b => .ite (c.ren f) (a.ren f) (b.ren f)
  | .letIn bs body => .letIn (renBindings f bs) (body.ren (keep (bs.map (·.1)) f))
  | .quant q bs _ body => .quant q bs [] (body.ren (keep (bs.map (·.1)) f))
  | .lambda bs body => .lambda bs (body.ren (keep (bs.map (·.1)) f))

/-- Renaming in several expressions. -/
def Expr.renList (f : String → String) : List Expr → List Expr
  | [] => []
  | e :: es => e.ren f :: renList f es

/-- Renaming in the values of a let. -/
def Expr.renBindings (f : String → String) : List (String × Expr) → List (String × Expr)
  | [] => []
  | (x, e) :: rest => (x, e.ren f) :: renBindings f rest

end

mutual

/-- All names that an expression binds have a property. -/
def Expr.BoundIn (P : String → Prop) : Expr → Prop
  | .bool _ | .num _ | .var _ | .old _ => True
  | .app _ args => BoundInList P args
  | .applyLambda _ g args => g.BoundIn P ∧ BoundInList P args
  | .not e => e.BoundIn P
  | .binary _ a b => a.BoundIn P ∧ b.BoundIn P
  | .multi _ es => BoundInList P es
  | .ite c a b => c.BoundIn P ∧ a.BoundIn P ∧ b.BoundIn P
  | .letIn bs body => (∀ b ∈ bs, P b.1) ∧ BoundInBindings P bs ∧ body.BoundIn P
  | .quant _ bs _ body => (∀ b ∈ bs, P b.1) ∧ body.BoundIn P
  | .lambda bs body => (∀ b ∈ bs, P b.1) ∧ body.BoundIn P

/-- All names that several expressions bind have a property. -/
def Expr.BoundInList (P : String → Prop) : List Expr → Prop
  | [] => True
  | e :: es => e.BoundIn P ∧ BoundInList P es

/-- All names that the values of a let bind have a property. -/
def Expr.BoundInBindings (P : String → Prop) : List (String × Expr) → Prop
  | [] => True
  | (_, e) :: rest => e.BoundIn P ∧ BoundInBindings P rest

end

namespace Expr

variable {f : String → String} {P : String → Prop}

theorem renList_eq (es : List Expr) : renList f es = es.map (ren f) := by
  induction es with
  | nil => rfl
  | cons e es ih => exact congrArg (e.ren f :: ·) ih

theorem renBindings_eq (bs : List (String × Expr)) :
    renBindings f bs = bs.map fun b => (b.1, b.2.ren f) := by
  induction bs with
  | nil => rfl
  | cons b bs ih => exact congrArg ((b.1, b.2.ren f) :: ·) ih

theorem boundInList_iff (es : List Expr) : BoundInList P es ↔ ∀ e ∈ es, e.BoundIn P := by
  induction es with
  | nil => simp [BoundInList]
  | cons e es ih => simp [BoundInList, ih]

theorem boundInBindings_iff (bs : List (String × Expr)) :
    BoundInBindings P bs ↔ ∀ b ∈ bs, b.2.BoundIn P := by
  induction bs with
  | nil => simp [BoundInBindings]
  | cons b bs ih => simp [BoundInBindings, ih]

/-! ## Renaming and building commute -/

@[simp] theorem ren_bool (b : Bool) : (bool b).ren f = .bool b := rfl

@[simp] theorem ren_num (d : String) : (num d).ren f = .num d := rfl

@[simp] theorem ren_var (x : String) : (var x).ren f = .var (f x) := rfl

@[simp] theorem ren_old (x : String) : (old x).ren f = .old x := rfl

@[simp] theorem ren_app (g : String) (args : List Expr) :
    (app g args).ren f = .app g (args.map (ren f)) := congrArg (Expr.app g) (renList_eq args)

@[simp] theorem ren_applyLambda (s : Srt) (g : Expr) (args : List Expr) :
    (applyLambda s g args).ren f = .applyLambda s (g.ren f) (args.map (ren f)) :=
  congrArg (Expr.applyLambda s (g.ren f)) (renList_eq args)

@[simp] theorem ren_not (e : Expr) : (not e).ren f = .not (e.ren f) := rfl

@[simp] theorem ren_binary (op : BinOp) (a b : Expr) :
    (binary op a b).ren f = .binary op (a.ren f) (b.ren f) := rfl

@[simp] theorem ren_multi (op : MultiOp) (es : List Expr) :
    (multi op es).ren f = .multi op (es.map (ren f)) := congrArg (Expr.multi op) (renList_eq es)

@[simp] theorem ren_ite (c a b : Expr) :
    (ite c a b).ren f = .ite (c.ren f) (a.ren f) (b.ren f) := rfl

@[simp] theorem ren_letIn (bs : List (String × Expr)) (body : Expr) :
    (letIn bs body).ren f =
      .letIn (bs.map fun b => (b.1, b.2.ren f)) (body.ren (keep (bs.map (·.1)) f)) := by
  rw [← renBindings_eq]; rfl

@[simp] theorem ren_quant (q : Quantifier) (bs : List Binder) (ts : List (List Expr))
    (body : Expr) :
    (quant q bs ts body).ren f = .quant q bs [] (body.ren (keep (bs.map (·.1)) f)) := rfl

@[simp] theorem ren_lambda (bs : List Binder) (body : Expr) :
    (lambda bs body).ren f = .lambda bs (body.ren (keep (bs.map (·.1)) f)) := rfl

@[simp] theorem ren_tt : tt.ren f = tt := rfl

@[simp] theorem ren_ff : ff.ren f = ff := rfl

@[simp] theorem ren_nat (n : Nat) : (nat n).ren f = nat n := rfl

@[simp] theorem isTrue_ren (e : Expr) : (e.ren f).isTrue = e.isTrue := by
  cases e <;> rfl

@[simp] theorem isFalse_ren (e : Expr) : (e.ren f).isFalse = e.isFalse := by
  cases e <;> rfl

@[simp] theorem ren_neg (e : Expr) : e.neg.ren f = (e.ren f).neg := by
  cases e <;> rfl

theorem conjOperands_ren (e : Expr) : (e.ren f).conjOperands = e.conjOperands.map (ren f) := by
  cases e with
  | bool b => cases b <;> simp [conjOperands]
  | multi op es => cases op <;> simp [conjOperands]
  | _ => simp [conjOperands]

theorem disjOperands_ren (e : Expr) : (e.ren f).disjOperands = e.disjOperands.map (ren f) := by
  cases e with
  | bool b => cases b <;> simp [disjOperands]
  | multi op es => cases op <;> simp [disjOperands]
  | _ => simp [disjOperands]

@[simp] theorem ren_conj (es : List Expr) : (conj es).ren f = conj (es.map (ren f)) := by
  have hany : (es.map (ren f)).any isFalse = es.any isFalse := by
    simp [List.any_map, Function.comp_def]
  have hops : (es.map (ren f)).flatMap conjOperands = (es.flatMap conjOperands).map (ren f) := by
    simp [List.flatMap_map, List.map_flatMap, conjOperands_ren]
  unfold conj
  rw [hany, hops]
  split
  · simp
  · rcases es.flatMap conjOperands with _ | ⟨a, _ | ⟨b, l⟩⟩
    · simp
    · simp
    · simp

@[simp] theorem ren_disj (es : List Expr) : (disj es).ren f = disj (es.map (ren f)) := by
  have hany : (es.map (ren f)).any Expr.isTrue = es.any Expr.isTrue := by
    simp [List.any_map, Function.comp_def]
  have hops : (es.map (ren f)).flatMap disjOperands = (es.flatMap disjOperands).map (ren f) := by
    simp [List.flatMap_map, List.map_flatMap, disjOperands_ren]
  unfold disj
  rw [hany, hops]
  split
  · simp
  · rcases es.flatMap disjOperands with _ | ⟨a, _ | ⟨b, l⟩⟩
    · simp
    · simp
    · simp

@[simp] theorem ren_imp (a b : Expr) : (imp a b).ren f = imp (a.ren f) (b.ren f) := by
  unfold imp
  simp only [isTrue_ren, isFalse_ren]
  split
  · rfl
  split
  · simp
  split
  · simp
  · rfl

@[simp] theorem ren_cond (c a b : Expr) :
    (Expr.cond c a b).ren f = Expr.cond (c.ren f) (a.ren f) (b.ren f) := by
  unfold Expr.cond
  simp only [isTrue_ren, isFalse_ren]
  split
  · rfl
  split
  · rfl
  · rfl

@[simp] theorem ren_eq (a b : Expr) : (eq a b).ren f = eq (a.ren f) (b.ren f) := by simp [eq]

@[simp] theorem ren_ne (a b : Expr) : (ne a b).ren f = ne (a.ren f) (b.ren f) := by simp [ne]

@[simp] theorem ren_le (a b : Expr) : (le a b).ren f = le (a.ren f) (b.ren f) := by simp [le]

@[simp] theorem ren_lt (a b : Expr) : (lt a b).ren f = lt (a.ren f) (b.ren f) := by simp [lt]

@[simp] theorem ren_sub (a b : Expr) : (sub a b).ren f = sub (a.ren f) (b.ren f) := by simp [sub]

@[simp] theorem ren_lets (bs : List (String × Expr)) (body : Expr) :
    (lets bs body).ren f =
      lets (bs.map fun b => (b.1, b.2.ren f)) (body.ren (keep (bs.map (·.1)) f)) := by
  cases bs with
  | nil => rfl
  | cons b bs => simp [lets]

@[simp] theorem ren_quantify (q : Quantifier) (bs : List Binder) (ts : List Trigger)
    (body : Expr) :
    (quantify q bs ts body).ren f = quantify q bs [] (body.ren (keep (bs.map (·.1)) f)) := by
  cases bs with
  | nil => rfl
  | cons b bs => simp [quantify]

@[simp] theorem ren_all (bs : List Binder) (ts : List Trigger) (body : Expr) :
    (all bs ts body).ren f = all bs [] (body.ren (keep (bs.map (·.1)) f)) :=
  ren_quantify .all bs ts body

@[simp] theorem ren_ex (bs : List Binder) (ts : List Trigger) (body : Expr) :
    (ex bs ts body).ren f = ex bs [] (body.ren (keep (bs.map (·.1)) f)) :=
  ren_quantify .ex bs ts body

/-! ## Bound names of what is built -/

@[simp] theorem boundIn_bool (b : Bool) : (bool b).BoundIn P := trivial

@[simp] theorem boundIn_num (d : String) : (num d).BoundIn P := trivial

@[simp] theorem boundIn_var (x : String) : (var x).BoundIn P := trivial

@[simp] theorem boundIn_old (x : String) : (old x).BoundIn P := trivial

@[simp] theorem boundIn_app (g : String) (args : List Expr) :
    (app g args).BoundIn P ↔ ∀ a ∈ args, a.BoundIn P := boundInList_iff args

@[simp] theorem boundIn_not (e : Expr) : (not e).BoundIn P ↔ e.BoundIn P := Iff.rfl

@[simp] theorem boundIn_binary (op : BinOp) (a b : Expr) :
    (binary op a b).BoundIn P ↔ a.BoundIn P ∧ b.BoundIn P := Iff.rfl

@[simp] theorem boundIn_multi (op : MultiOp) (es : List Expr) :
    (multi op es).BoundIn P ↔ ∀ e ∈ es, e.BoundIn P := boundInList_iff es

@[simp] theorem boundIn_ite (c a b : Expr) :
    (ite c a b).BoundIn P ↔ c.BoundIn P ∧ a.BoundIn P ∧ b.BoundIn P := Iff.rfl

@[simp] theorem boundIn_letIn (bs : List (String × Expr)) (body : Expr) :
    (letIn bs body).BoundIn P ↔
      (∀ b ∈ bs, P b.1) ∧ (∀ b ∈ bs, b.2.BoundIn P) ∧ body.BoundIn P := by
  rw [← boundInBindings_iff]; rfl

@[simp] theorem boundIn_quant (q : Quantifier) (bs : List Binder) (ts : List (List Expr))
    (body : Expr) : (quant q bs ts body).BoundIn P ↔ (∀ b ∈ bs, P b.1) ∧ body.BoundIn P := Iff.rfl

@[simp] theorem boundIn_lambda (bs : List Binder) (body : Expr) :
    (lambda bs body).BoundIn P ↔ (∀ b ∈ bs, P b.1) ∧ body.BoundIn P := Iff.rfl

@[simp] theorem boundIn_tt : tt.BoundIn P := trivial

@[simp] theorem boundIn_ff : ff.BoundIn P := trivial

@[simp] theorem boundIn_nat (n : Nat) : (nat n).BoundIn P := trivial

theorem boundIn_neg {e : Expr} (h : e.BoundIn P) : e.neg.BoundIn P := by
  cases e <;> exact h

theorem boundIn_conjOperands {e o : Expr} (h : e.BoundIn P) (ho : o ∈ e.conjOperands) :
    o.BoundIn P := by
  unfold conjOperands at ho
  split at ho
  · cases ho
  · exact (boundIn_multi _ _).1 h o ho
  · obtain rfl := List.mem_singleton.1 ho; exact h

theorem boundIn_disjOperands {e o : Expr} (h : e.BoundIn P) (ho : o ∈ e.disjOperands) :
    o.BoundIn P := by
  unfold disjOperands at ho
  split at ho
  · cases ho
  · exact (boundIn_multi _ _).1 h o ho
  · obtain rfl := List.mem_singleton.1 ho; exact h

theorem boundIn_conj {es : List Expr} (h : ∀ e ∈ es, e.BoundIn P) : (conj es).BoundIn P := by
  have hops : ∀ o ∈ es.flatMap conjOperands, o.BoundIn P := by
    intro o ho
    obtain ⟨e, he, ho⟩ := List.mem_flatMap.1 ho
    exact boundIn_conjOperands (h e he) ho
  unfold conj
  split
  · trivial
  · revert hops
    rcases es.flatMap conjOperands with _ | ⟨a, _ | ⟨b, l⟩⟩
    · exact fun _ => trivial
    · exact fun hops => hops a (by simp)
    · exact fun hops => (boundIn_multi _ _).2 hops

theorem boundIn_disj {es : List Expr} (h : ∀ e ∈ es, e.BoundIn P) : (disj es).BoundIn P := by
  have hops : ∀ o ∈ es.flatMap disjOperands, o.BoundIn P := by
    intro o ho
    obtain ⟨e, he, ho⟩ := List.mem_flatMap.1 ho
    exact boundIn_disjOperands (h e he) ho
  unfold disj
  split
  · trivial
  · revert hops
    rcases es.flatMap disjOperands with _ | ⟨a, _ | ⟨b, l⟩⟩
    · exact fun _ => trivial
    · exact fun hops => hops a (by simp)
    · exact fun hops => (boundIn_multi _ _).2 hops

theorem boundIn_imp {a b : Expr} (ha : a.BoundIn P) (hb : b.BoundIn P) : (imp a b).BoundIn P := by
  unfold imp
  split
  · exact hb
  split
  · trivial
  split
  · exact boundIn_neg ha
  · exact ⟨ha, hb⟩

theorem boundIn_cond {c a b : Expr} (hc : c.BoundIn P) (ha : a.BoundIn P) (hb : b.BoundIn P) :
    (Expr.cond c a b).BoundIn P := by
  unfold Expr.cond
  split
  · exact ha
  split
  · exact hb
  · exact ⟨hc, ha, hb⟩

/-- Every name satisfies the trivial property. -/
theorem boundIn_true (e : Expr) : e.BoundIn fun _ => True := by
  induction e using Expr.recData with
  | bool | num | var | old => trivial
  | app g args ih => exact (boundIn_app g args).2 ih
  | applyLambda s g args ihg ih => exact ⟨ihg, (boundInList_iff args).2 ih⟩
  | not e ih => exact ih
  | binary op a b iha ihb => exact ⟨iha, ihb⟩
  | multi op es ih => exact (boundIn_multi op es).2 ih
  | ite c a b ihc iha ihb => exact ⟨ihc, iha, ihb⟩
  | letIn bs body ihbs ih => exact (boundIn_letIn bs body).2 ⟨fun _ _ => trivial, ihbs, ih⟩
  | quant q bs ts body ih => exact ⟨fun _ _ => trivial, ih⟩
  | lambda bs body ih => exact ⟨fun _ _ => trivial, ih⟩

theorem boundIn_lets {bs : List (String × Expr)} {body : Expr} (hbs : ∀ b ∈ bs, P b.1)
    (hvalues : ∀ b ∈ bs, b.2.BoundIn P) (hbody : body.BoundIn P) : (lets bs body).BoundIn P := by
  unfold lets
  split
  · exact hbody
  · exact (boundIn_letIn _ _).2 ⟨hbs, hvalues, hbody⟩

theorem boundIn_quantify {q : Quantifier} {bs : List Binder} {ts : List Trigger} {body : Expr}
    (hbs : ∀ b ∈ bs, P b.1) (hbody : body.BoundIn P) : (quantify q bs ts body).BoundIn P := by
  unfold quantify
  split
  · exact hbody
  · exact ⟨hbs, hbody⟩

end Expr

/-! ## Values of renamed expressions -/

/-- Binding names after renaming is renaming below the binders, if no binder captures a new
name. -/
theorem Model.bind_comp_keep {M : Model} {l : List (String × M.Val)} {xs : List String}
    {ρ : M.Valuation} {f : String → String} (hxs : ∀ x, x ∈ xs ↔ x ∈ l.map (·.1))
    (hf : ∀ x, x ∉ xs → f x ∉ xs) :
    bind l ρ ∘ keep xs f = bind l (ρ ∘ f) := by
  funext x
  by_cases hx : x ∈ xs
  · rw [Function.comp_apply, keep_of_mem hx]
    exact bind_of_mem ((hxs x).1 hx)
  · rw [Function.comp_apply, keep_of_notMem hx, bind_of_notMem fun h => hf x hx ((hxs _).2 h),
      bind_of_notMem fun h => hx ((hxs _).2 h)]
    rfl

/-- No name that a renaming introduces has a property. -/
def Avoids (P : String → Prop) (f : String → String) : Prop := ∀ x, f x = x ∨ ¬ P (f x)

theorem Avoids.keep {P : String → Prop} {f : String → String} (h : Avoids P f)
    (xs : List String) : Avoids P (keep xs f) := by
  intro x
  by_cases hx : x ∈ xs
  · exact .inl (keep_of_mem hx)
  · rw [keep_of_notMem hx]; exact h x

theorem Avoids.notMem {P : String → Prop} {f : String → String} (h : Avoids P f)
    {xs : List String} (hxs : ∀ x ∈ xs, P x) {x : String} (hx : x ∉ xs) : f x ∉ xs := by
  rcases h x with he | hP
  · rwa [he]
  · exact fun hm => hP (hxs _ hm)

theorem Avoids.id (P : String → Prop) : Avoids P id := fun _ => .inl rfl

/-- Values for binders, after renaming and below it. -/
theorem Model.assigns_comp {M : Model} {P : String → Prop} {f : String → String}
    (hf : Avoids P f) {bs : List Binder} (hbs : ∀ b ∈ bs, P b.1) {ρ σ : M.Valuation} :
    Model.Assigns bs (ρ ∘ f) σ ↔
      ∃ ρ', Model.Assigns bs ρ ρ' ∧ σ = ρ' ∘ keep (bs.map (·.1)) f := by
  have hP : ∀ x ∈ bs.map (·.1), P x := by simpa using hbs
  have comp (as : List M.Val) (h : bs.length = as.length) :
      bind ((bs.map (·.1)).zip as) ρ ∘ keep (bs.map (·.1)) f =
        bind ((bs.map (·.1)).zip as) (ρ ∘ f) := by
    refine bind_comp_keep (fun x => ?_) fun x hx => hf.notMem hP hx
    rw [List.map_fst_zip (by simp [h])]
  constructor
  · rintro ⟨as, has, rfl⟩
    exact ⟨_, ⟨as, has, rfl⟩, (comp as has.length_eq).symm⟩
  · rintro ⟨_, ⟨as, has, rfl⟩, rfl⟩
    exact ⟨as, has, comp as has.length_eq⟩

/-- A renamed expression has the value of the original under the renamed valuation. -/
theorem Expr.eval_ren {M : Model} {P : String → Prop} {old : M.Valuation} (e : Expr) :
    ∀ {f : String → String} {ρ : M.Valuation}, Avoids P f → e.BoundIn P →
      (e.ren f).eval old ρ = e.eval old (ρ ∘ f) := by
  have map_eval {f : String → String} {ρ : M.Valuation} {es : List Expr}
      (h : ∀ e ∈ es, (e.ren f).eval old ρ = e.eval old (ρ ∘ f)) :
      (es.map (ren f)).map (·.eval old ρ) = es.map (·.eval old (ρ ∘ f)) := by
    rw [List.map_map]
    exact List.map_congr_left h
  induction e using Expr.recData with
  | bool b | num d | old x => intros; rfl
  | var x => intros; simp
  | app g args ih =>
    intro f ρ hf hb
    rw [ren_app, eval_app, eval_app, map_eval]
    exact fun e he => ih e he hf ((boundIn_app g args).1 hb e he)
  | applyLambda s g args ihg ih =>
    intro f ρ hf hb
    rw [ren_applyLambda, eval_applyLambda, eval_applyLambda, ihg hf hb.1, map_eval]
    exact fun e he => ih e he hf ((boundInList_iff _).1 hb.2 e he)
  | not e ih => intro f ρ hf hb; rw [ren_not, eval_not, eval_not, ih hf hb]
  | binary op a b iha ihb =>
    intro f ρ hf hb
    rw [ren_binary, eval_binary, eval_binary, iha hf hb.1, ihb hf hb.2]
  | multi op es ih =>
    intro f ρ hf hb
    rw [ren_multi, eval_multi, eval_multi, map_eval]
    exact fun e he => ih e he hf ((boundIn_multi op es).1 hb e he)
  | ite c a b ihc iha ihb =>
    intro f ρ hf hb
    rw [ren_ite, eval_ite, eval_ite, ihc hf hb.1, iha hf hb.2.1, ihb hf hb.2.2]
  | letIn bs body ihbs ih =>
    intro f ρ hf hb
    obtain ⟨hP, hbs, hbody⟩ := (boundIn_letIn bs body).1 hb
    have hvalues : (bs.map fun b => (b.1, b.2.ren f)).map (fun b => (b.1, b.2.eval old ρ)) =
        bs.map fun b => (b.1, b.2.eval old (ρ ∘ f)) := by
      rw [List.map_map]
      exact List.map_congr_left fun b hb => by simp [ihbs b hb hf (hbs b hb)]
    rw [ren_letIn, eval_letIn, eval_letIn, hvalues, ih (hf.keep _) hbody]
    congr 1
    exact Model.bind_comp_keep (fun x => by simp) fun x hx => hf.notMem (by simpa using hP) hx
  | quant q bs ts body ih =>
    intro f ρ hf hb
    cases q with
    | all =>
      rw [ren_quant, eval_all, eval_all]
      congr 1
      refine propext ⟨fun h σ hσ => ?_, fun h ρ' hρ' => ?_⟩
      · obtain ⟨ρ', hρ', rfl⟩ := (Model.assigns_comp hf hb.1).1 hσ
        rw [← ih (hf.keep _) hb.2]
        exact h ρ' hρ'
      · rw [ih (hf.keep _) hb.2]
        exact h _ ((Model.assigns_comp hf hb.1).2 ⟨ρ', hρ', rfl⟩)
    | ex =>
      rw [ren_quant, eval_ex, eval_ex]
      congr 1
      refine propext ⟨?_, ?_⟩
      · rintro ⟨ρ', hρ', h⟩
        rw [ih (hf.keep _) hb.2] at h
        exact ⟨_, (Model.assigns_comp hf hb.1).2 ⟨ρ', hρ', rfl⟩, h⟩
      · rintro ⟨σ, hσ, h⟩
        obtain ⟨ρ', hρ', rfl⟩ := (Model.assigns_comp hf hb.1).1 hσ
        rw [← ih (hf.keep _) hb.2] at h
        exact ⟨ρ', hρ', h⟩
  | lambda bs body ih =>
    intro f ρ hf hb
    rw [ren_lambda, eval_lambda, eval_lambda]
    congr 1
    funext as
    split
    · rename_i hlen
      rw [ih (hf.keep _) hb.2]
      congr 1
      refine Model.bind_comp_keep (fun x => ?_) fun x hx => hf.notMem (by simpa using hb.1) hx
      rw [List.map_fst_zip (by simp [hlen])]
    · rfl

/-! ## Renamed copies -/

/-- An expression is the other one renamed, up to triggers, and all names the other one binds have
a property. -/
structure Renames (P : String → Prop) (f : String → String) (e e' : Expr) : Prop where
  eq : e'.ren id = e.ren f
  bound : e.BoundIn P

namespace Renames

variable {P : String → Prop} {f : String → String} {a a' b b' c c' : Expr}

/-- An expression that mentions no renamed variable and binds nothing of interest. -/
theorem self (h : a.ren f = a.ren id) (hb : a.BoundIn P) : Renames P f a a := ⟨h.symm, hb⟩

theorem bool (x : Bool) : Renames P f (.bool x) (.bool x) := ⟨rfl, trivial⟩

theorem tt : Renames P f .tt .tt := bool true

theorem nat (n : Nat) : Renames P f (.nat n) (.nat n) := ⟨rfl, trivial⟩

theorem var (x : String) : Renames P f (.var x) (.var (f x)) := ⟨rfl, trivial⟩

/-- A constant whose name is not renamed. -/
theorem const {x : String} (h : f x = x) : Renames P f (.var x) (.var x) :=
  ⟨by simp [h], trivial⟩

theorem app {g : String} {as as' : List Expr} (h : List.Forall₂ (Renames P f) as as') :
    Renames P f (.app g as) (.app g as') where
  eq := by
    simp only [Expr.ren_app]
    congr 1
    induction h with
    | nil => rfl
    | cons h _ ih => simp [h.eq, ih]
  bound := by
    rw [Expr.boundIn_app]
    induction h with
    | nil => simp
    | cons h _ ih => simpa [h.bound] using ih

theorem app₁ {g : String} (h : Renames P f a a') : Renames P f (.app g [a]) (.app g [a']) :=
  app (.cons h .nil)

theorem app₂ {g : String} (h : Renames P f a a') (h' : Renames P f b b') :
    Renames P f (.app g [a, b]) (.app g [a', b']) :=
  app (.cons h (.cons h' .nil))

theorem app₃ {g : String} (h : Renames P f a a') (h' : Renames P f b b')
    (h'' : Renames P f c c') : Renames P f (.app g [a, b, c]) (.app g [a', b', c']) :=
  app (.cons h (.cons h' (.cons h'' .nil)))

theorem binary {op : BinOp} (h : Renames P f a a') (h' : Renames P f b b') :
    Renames P f (.binary op a b) (.binary op a' b') :=
  ⟨by simp [h.eq, h'.eq], h.bound, h'.bound⟩

theorem multi₂ {op : MultiOp} (h : Renames P f a a') (h' : Renames P f b b') :
    Renames P f (.multi op [a, b]) (.multi op [a', b']) :=
  ⟨by simp [h.eq, h'.eq], by simp [h.bound, h'.bound]⟩

theorem neg (h : Renames P f a a') : Renames P f a.neg a'.neg :=
  ⟨by simp [h.eq], Expr.boundIn_neg h.bound⟩

theorem map_eq {as as' : List Expr} (h : List.Forall₂ (Renames P f) as as') :
    as'.map (Expr.ren id) = as.map (Expr.ren f) := by
  induction h with
  | nil => rfl
  | cons h _ ih => simp [h.eq, ih]

theorem forall_bound {as as' : List Expr} (h : List.Forall₂ (Renames P f) as as') :
    ∀ a ∈ as, a.BoundIn P := by
  induction h with
  | nil => simp
  | cons h _ ih => simpa [h.bound] using ih

theorem conj {as as' : List Expr} (h : List.Forall₂ (Renames P f) as as') :
    Renames P f (.conj as) (.conj as') :=
  ⟨by simp [map_eq h], Expr.boundIn_conj (forall_bound h)⟩

theorem disj {as as' : List Expr} (h : List.Forall₂ (Renames P f) as as') :
    Renames P f (.disj as) (.disj as') :=
  ⟨by simp [map_eq h], Expr.boundIn_disj (forall_bound h)⟩

theorem imp (h : Renames P f a a') (h' : Renames P f b b') :
    Renames P f (.imp a b) (.imp a' b') :=
  ⟨by simp [h.eq, h'.eq], Expr.boundIn_imp h.bound h'.bound⟩

theorem cond (h : Renames P f a a') (h' : Renames P f b b') (h'' : Renames P f c c') :
    Renames P f (.cond a b c) (.cond a' b' c') :=
  ⟨by simp [h.eq, h'.eq, h''.eq], Expr.boundIn_cond h.bound h'.bound h''.bound⟩

theorem ne (h : Renames P f a a') (h' : Renames P f b b') : Renames P f (.ne a b) (.ne a' b') :=
  (binary h h').neg

theorem quantify {q : Quantifier} {bs : List Binder} {ts ts' : List Trigger}
    (hbs : ∀ b ∈ bs, P b.1) (h : Renames P (keep (bs.map (·.1)) f) a a') :
    Renames P f (.quantify q bs ts a) (.quantify q bs ts' a') :=
  ⟨by simp [h.eq], Expr.boundIn_quantify hbs h.bound⟩

theorem lambda {bs : List Binder} (hbs : ∀ b ∈ bs, P b.1)
    (h : Renames P (keep (bs.map (·.1)) f) a a') :
    Renames P f (.lambda bs a) (.lambda bs a') :=
  ⟨by simp [h.eq], hbs, h.bound⟩

/-- Lets with the same names and renamed values. -/
theorem lets {bs bs' : List (String × Expr)}
    (hbs : List.Forall₂ (fun b b' => b'.1 = b.1 ∧ Renames P f b.2 b'.2) bs bs')
    (hP : ∀ b ∈ bs, P b.1) (h : Renames P (keep (bs.map (·.1)) f) a a') :
    Renames P f (.lets bs a) (.lets bs' a') := by
  have hvalues : bs'.map (fun b => (b.1, b.2.ren id)) = bs.map fun b => (b.1, b.2.ren f) := by
    clear h hP
    induction hbs with
    | nil => rfl
    | cons h _ ih => simp [h.1, h.2.eq, ih]
  have hbound : ∀ b ∈ bs, b.2.BoundIn P := by
    clear h hP hvalues
    induction hbs with
    | nil => simp
    | cons h _ ih => simpa [h.2.bound] using ih
  exact ⟨by simp [h.eq, hvalues], Expr.boundIn_lets hP hbound h.bound⟩

/-- A renamed copy has the value of the original under the renamed valuation. -/
theorem eval_eq {M : Model} {old ρ : M.Valuation} (h : Renames P f a a') (hf : Avoids P f) :
    a'.eval old ρ = a.eval old (ρ ∘ f) := by
  have hid : (a'.ren id).eval old ρ = a'.eval old ρ :=
    Expr.eval_ren a' (.id fun _ => True) (Expr.boundIn_true a')
  rw [← hid, h.eq, Expr.eval_ren a hf h.bound]

theorem holds_iff {M : Model} {old ρ : M.Valuation} (h : Renames P f a a') (hf : Avoids P f) :
    Holds old ρ a' ↔ Holds old (ρ ∘ f) a := by
  rw [Holds, Holds, h.eval_eq hf]

end Renames

/-! ## Names in an expression -/

mutual

/-- All names that occur in an expression, free or bound. -/
def Expr.names : Expr → List String
  | .bool _ | .num _ | .old _ => []
  | .var x => [x]
  | .app _ args => namesList args
  | .applyLambda _ g args => g.names ++ namesList args
  | .not e => e.names
  | .binary _ a b => a.names ++ b.names
  | .multi _ es => namesList es
  | .ite c a b => c.names ++ a.names ++ b.names
  | .letIn bs body => bs.map (·.1) ++ namesBindings bs ++ body.names
  | .quant _ bs _ body | .lambda bs body => bs.map (·.1) ++ body.names

/-- All names in several expressions. -/
def Expr.namesList : List Expr → List String
  | [] => []
  | e :: es => e.names ++ namesList es

/-- All names in the values of a let. -/
def Expr.namesBindings : List (String × Expr) → List String
  | [] => []
  | (_, e) :: rest => e.names ++ namesBindings rest

end

namespace Expr

theorem mem_namesList {x : String} {es : List Expr} :
    x ∈ namesList es ↔ ∃ e ∈ es, x ∈ e.names := by
  induction es with
  | nil => simp [namesList]
  | cons e es ih => simp [namesList, ih]

theorem mem_namesBindings {x : String} {bs : List (String × Expr)} :
    x ∈ namesBindings bs ↔ ∃ b ∈ bs, x ∈ b.2.names := by
  induction bs with
  | nil => simp [namesBindings]
  | cons b bs ih => simp [namesBindings, ih]

/-- What holds of all names of an expression holds of those it binds. -/
theorem boundIn_of_names {P : String → Prop} (e : Expr) :
    (∀ x ∈ e.names, P x) → e.BoundIn P := by
  induction e using Expr.recData with
  | bool | num | old | var => intros; trivial
  | app g args ih =>
    intro h
    refine (boundIn_app g args).2 fun e he => ih e he fun x hx => h x ?_
    rw [names, mem_namesList]; exact ⟨e, he, hx⟩
  | applyLambda s g args ihg ih =>
    intro h
    refine ⟨ihg fun x hx => h x (by simp [names, hx]), (boundInList_iff args).2 fun e he =>
      ih e he fun x hx => h x ?_⟩
    rw [names, List.mem_append, mem_namesList]; exact .inr ⟨e, he, hx⟩
  | not e ih => exact ih
  | binary op a b iha ihb =>
    intro h
    exact ⟨iha fun x hx => h x (by simp [names, hx]), ihb fun x hx => h x (by simp [names, hx])⟩
  | multi op es ih =>
    intro h
    refine (boundIn_multi op es).2 fun e he => ih e he fun x hx => h x ?_
    rw [names, mem_namesList]; exact ⟨e, he, hx⟩
  | ite c a b ihc iha ihb =>
    intro h
    exact ⟨ihc fun x hx => h x (by simp [names, hx]), iha fun x hx => h x (by simp [names, hx]),
      ihb fun x hx => h x (by simp [names, hx])⟩
  | letIn bs body ihbs ih =>
    intro h
    refine (boundIn_letIn bs body).2 ⟨fun b hb => h _ ?_, fun b hb => ihbs b hb fun x hx => h x ?_,
      ih fun x hx => h x (by simp [names, hx])⟩
    · rw [names, List.mem_append, List.mem_append]
      exact .inl (.inl (List.mem_map_of_mem hb))
    · rw [names, List.mem_append, List.mem_append, mem_namesBindings]
      exact .inl (.inr ⟨b, hb, hx⟩)
  | quant q bs ts body ih =>
    intro h
    refine ⟨fun b hb => h _ ?_, ih fun x hx => h x (by simp [names, hx])⟩
    rw [names, List.mem_append]
    exact .inl (List.mem_map_of_mem hb)
  | lambda bs body ih =>
    intro h
    refine ⟨fun b hb => h _ ?_, ih fun x hx => h x (by simp [names, hx])⟩
    rw [names, List.mem_append]
    exact .inl (List.mem_map_of_mem hb)

/-- The value of an expression does not depend on a name that does not occur in it. -/
theorem eval_update {M : Model} {old : M.Valuation} {x : String} {a : M.Val} (e : Expr) :
    x ∉ e.names → ∀ ρ : M.Valuation, e.eval old (Function.update ρ x a) = e.eval old ρ := by
  have map {es : List Expr} {ρ : M.Valuation}
      (ih : ∀ e ∈ es, x ∉ e.names → e.eval old (Function.update ρ x a) = e.eval old ρ)
      (h : x ∉ namesList es) :
      es.map (·.eval old (Function.update ρ x a)) = es.map (·.eval old ρ) :=
    List.map_congr_left fun e he => ih e he fun hx => h (mem_namesList.2 ⟨e, he, hx⟩)
  induction e using Expr.recData with
  | bool | num | old => intros; rfl
  | var y =>
    intro h ρ
    exact Function.update_of_ne (fun hy => h (by simp [names, hy])) _ _
  | app g args ih =>
    intro h ρ
    rw [eval_app, eval_app, map (fun e he hx => ih e he hx ρ) h]
  | applyLambda s g args ihg ih =>
    intro h ρ
    simp only [names, List.mem_append, not_or] at h
    rw [eval_applyLambda, eval_applyLambda, ihg h.1, map (fun e he hx => ih e he hx ρ) h.2]
  | not e ih => intro h ρ; rw [eval_not, eval_not, ih h]
  | binary op a b iha ihb =>
    intro h ρ
    simp only [names, List.mem_append, not_or] at h
    rw [eval_binary, eval_binary, iha h.1, ihb h.2]
  | multi op es ih =>
    intro h ρ
    rw [eval_multi, eval_multi, map (fun e he hx => ih e he hx ρ) h]
  | ite c a b ihc iha ihb =>
    intro h ρ
    simp only [names, List.mem_append, not_or] at h
    rw [eval_ite, eval_ite, ihc h.1.1, iha h.1.2, ihb h.2]
  | letIn bs body ihbs ih =>
    intro h ρ
    simp only [names, List.mem_append, not_or] at h
    have hvalues : (bs.map fun b => (b.1, b.2.eval old (Function.update ρ x a))) =
        bs.map fun b => (b.1, b.2.eval old ρ) :=
      List.map_congr_left fun b hb => by
        rw [ihbs b hb fun hx => h.1.2 (mem_namesBindings.2 ⟨b, hb, hx⟩)]
    rw [eval_letIn, eval_letIn, hvalues, Model.bind_update, ih h.2]
    rw [List.map_map]
    exact h.1.1
  | quant q bs ts body ih =>
    intro h ρ
    simp only [names, List.mem_append, not_or] at h
    cases q with
    | all =>
      rw [eval_all, eval_all]
      congr 1
      refine propext ⟨fun hall τ hτ => ?_, fun hall τ' hτ' => ?_⟩
      · rw [← ih h.2]; exact hall _ (hτ.set h.1)
      · obtain ⟨τ, hτ, rfl⟩ := hτ'.unset h.1
        rw [ih h.2]; exact hall τ hτ
    | ex =>
      rw [eval_ex, eval_ex]
      congr 1
      refine propext ⟨?_, fun ⟨τ, hτ, hm⟩ => ⟨_, hτ.set h.1, by rwa [ih h.2]⟩⟩
      rintro ⟨τ', hτ', hm⟩
      obtain ⟨τ, hτ, rfl⟩ := hτ'.unset h.1
      exact ⟨τ, hτ, by rwa [ih h.2] at hm⟩
  | lambda bs body ih =>
    intro h ρ
    simp only [names, List.mem_append, not_or] at h
    rw [eval_lambda, eval_lambda]
    congr 1
    funext as
    split
    · rename_i hlen
      rw [Model.bind_update, ih h.2]
      rw [List.map_fst_zip (by simp [hlen])]
      exact h.1
    · rfl

/-- A renaming that fixes all names of an expression does not change it. -/
theorem ren_of_fixed (e : Expr) : ∀ {f : String → String}, (∀ x ∈ e.names, f x = x) →
    e.ren f = e.ren id := by
  induction e using Expr.recData with
  | bool | num | old => intros; rfl
  | var x => intro f h; rw [ren_var, ren_var, h x (by simp [names]), id]
  | app g args ih =>
    intro f h
    rw [ren_app, ren_app, List.map_congr_left fun e he => ih e he fun x hx => h x ?_]
    rw [names, mem_namesList]; exact ⟨e, he, hx⟩
  | applyLambda s g args ihg ih =>
    intro f h
    rw [ren_applyLambda, ren_applyLambda, ihg fun x hx => h x (by simp [names, hx]),
      List.map_congr_left fun e he => ih e he fun x hx => h x ?_]
    rw [names, List.mem_append, mem_namesList]; exact .inr ⟨e, he, hx⟩
  | not e ih => intro f h; rw [ren_not, ren_not, ih h]
  | binary op a b iha ihb =>
    intro f h
    rw [ren_binary, ren_binary, iha fun x hx => h x (by simp [names, hx]),
      ihb fun x hx => h x (by simp [names, hx])]
  | multi op es ih =>
    intro f h
    rw [ren_multi, ren_multi, List.map_congr_left fun e he => ih e he fun x hx => h x ?_]
    rw [names, mem_namesList]; exact ⟨e, he, hx⟩
  | ite c a b ihc iha ihb =>
    intro f h
    rw [ren_ite, ren_ite, ihc fun x hx => h x (by simp [names, hx]),
      iha fun x hx => h x (by simp [names, hx]), ihb fun x hx => h x (by simp [names, hx])]
  | letIn bs body ihbs ih =>
    intro f h
    rw [ren_letIn, ren_letIn, keep_id, ih fun x hx => keep_of_fixed (h x (by simp [names, hx]))]
    congr 1
    refine List.map_congr_left fun b hb => ?_
    rw [ihbs b hb fun x hx => h x ?_]
    rw [names, List.mem_append, List.mem_append, mem_namesBindings]
    exact .inl (.inr ⟨b, hb, hx⟩)
  | quant q bs ts body ih =>
    intro f h
    rw [ren_quant, ren_quant, keep_id, ih fun x hx => keep_of_fixed (h x (by simp [names, hx]))]
  | lambda bs body ih =>
    intro f h
    rw [ren_lambda, ren_lambda, keep_id, ih fun x hx => keep_of_fixed (h x (by simp [names, hx]))]

end Expr

end ContractLowering.IL
