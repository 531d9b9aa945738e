import ContractLowering.Lowering.Heap
import Mathlib.Data.List.Forall2

/-!
# What a lowering returns

`x.Returns env a` says that the computation `x` gives the value `a` in an environment, whatever
it asks for on the way. A sequence returns through the values of its parts (`returns_bind`), so a
computation is taken apart by rewriting, and the order of its parts plays no role.
-/

namespace ContractLowering

open Source

/-- What stands in the right list of two related ones is related to something in the left list. -/
theorem exists_of_forall₂ {α β : Type} {R : α → β → Prop} {as : List α} {bs : List β} {b : β}
    (h : List.Forall₂ R as bs) (hb : b ∈ bs) : ∃ a ∈ as, R a b := by
  induction h with
  | nil => simp at hb
  | @cons a c as bs hc _ ih =>
    rcases List.mem_cons.1 hb with rfl | hb
    · exact ⟨a, List.mem_cons_self .., hc⟩
    · obtain ⟨d, hd, hR⟩ := ih hb
      exact ⟨d, List.mem_cons_of_mem _ hd, hR⟩

namespace ExprM

variable {α β : Type} {env : Env}

/-- A computation gives a value in an environment. -/
def Returns (x : ExprM α) (env : Env) (a : α) : Prop := (x env).result = .ok a

/-- The result of a sequence is that of its second part, if the first one has a value. -/
theorem bind_result {x : ExprM α} {f : α → ExprM β} :
    ((x >>= f) env).result = match (x env).result with
      | .error b => .error b
      | .ok a => (f a env).result := by
  show (seq x f env).result = _
  unfold seq
  rcases x env with ⟨rs, _ | a⟩ <;> rfl

/-- A sequence asks for what its parts ask for. -/
theorem bind_requests {x : ExprM α} {f : α → ExprM β} :
    ((x >>= f) env).requests = (x env).requests ++ match (x env).result with
      | .error _ => []
      | .ok a => (f a env).requests := by
  show (seq x f env).requests = _
  unfold seq
  rcases x env with ⟨rs, _ | a⟩ <;> simp

/-- A computation gives at most one value. -/
theorem Returns.unique {x : ExprM α} {a b : α} (ha : x.Returns env a) (hb : x.Returns env b) :
    a = b :=
  Except.ok.inj (ha.symm.trans hb)

@[simp] theorem returns_pure {a b : α} : (pure a : ExprM α).Returns env b ↔ b = a := by
  constructor
  · intro h; exact (Except.ok.inj h).symm
  · rintro rfl; rfl

@[simp] theorem returns_bind {x : ExprM α} {f : α → ExprM β} {b : β} :
    (x >>= f).Returns env b ↔ ∃ a, x.Returns env a ∧ (f a).Returns env b := by
  simp only [Returns, bind_result]
  cases (x env).result with
  | error e => simp
  | ok a => simp

/-- A sequence returns what its second part does after the value of the first. -/
theorem Returns.bind {x : ExprM α} {f : α → ExprM β} {a : α} {b : β} (ha : x.Returns env a)
    (hb : (f a).Returns env b) : (x >>= f).Returns env b :=
  returns_bind.2 ⟨a, ha, hb⟩

@[simp] theorem returns_env {e : Env} : ExprM.env.Returns env e ↔ e = env := by
  constructor
  · intro h; exact (Except.ok.inj h).symm
  · rintro rfl; rfl

@[simp] theorem returns_ofExcept {r : Except Broken α} {a : α} :
    (ofExcept r).Returns env a ↔ r = .ok a := Iff.rfl

@[simp] theorem returns_broken {b : Broken} {a : α} : ¬ (broken b : ExprM α).Returns env a := by
  intro h; cases h

@[simp] theorem returns_request {r : Request} {u : Unit} : (request r).Returns env u := by
  cases u; rfl

@[simp] theorem returns_options {o : Options} :
    options.Returns env o ↔ o = env.context.options := by
  simp [options]

@[simp] theorem returns_function {p : Path} {f : Function} :
    (function p).Returns env f ↔ env.context.function p = .ok f := by
  simp [function]

@[simp] theorem returns_datatype {p : Path} {d : Datatype} :
    (datatype p).Returns env d ↔ env.context.datatype p = .ok d := by
  simp [datatype]

@[simp] theorem returns_field {p : FieldId} {f : Field} :
    (field p).Returns env f ↔ env.context.field p = .ok f := by
  simp [field]

@[simp] theorem returns_isRecursive {p : Path} {b : Bool} :
    (isRecursive p).Returns env b ↔ b = env.context.calls.isRecursive p := by
  simp [isRecursive]

@[simp] theorem returns_inSameComponent {p q : Path} {b : Bool} :
    (inSameComponent p q).Returns env b ↔ b = env.context.calls.inSameComponent p q := by
  simp [inSameComponent]

theorem seq_pure (x : ExprM α) : seq x pure = x := by
  funext env
  unfold seq
  rcases x env with ⟨rs, r⟩
  cases r with
  | error e => rfl
  | ok a => simp [pure]

theorem seq_assoc {γ : Type} (x : ExprM α) (f : α → ExprM β) (g : β → ExprM γ) :
    seq (seq x f) g = seq x fun a => seq (f a) g := by
  funext env
  unfold seq
  rcases x env with ⟨rs, r⟩
  cases r with
  | error e => rfl
  | ok a =>
    dsimp only
    rcases f a env with ⟨ss, s⟩
    cases s with
    | error e => rfl
    | ok b => simp [List.append_assoc]

instance : LawfulMonad ExprM :=
  LawfulMonad.mk' ExprM seq_pure (fun _ _ => rfl) seq_assoc

@[simp] theorem returns_map {x : ExprM α} {f : α → β} {b : β} :
    (f <$> x).Returns env b ↔ ∃ a, x.Returns env a ∧ b = f a := by
  rw [map_eq_pure_bind]
  simp only [returns_bind, returns_pure]

/-- A computation over a list returns the values of its elements. -/
@[simp] theorem returns_mapM {f : α → ExprM β} {l : List α} {bs : List β} :
    (l.mapM f).Returns env bs ↔ List.Forall₂ (fun a b => (f a).Returns env b) l bs := by
  induction l generalizing bs with
  | nil => simp
  | cons a l ih =>
    simp only [List.mapM_cons, returns_bind, returns_pure, ih]
    constructor
    · rintro ⟨b, hb, bs', hbs, rfl⟩
      exact .cons hb hbs
    · rintro (_ | ⟨hb, hbs⟩)
      exact ⟨_, hb, _, hbs, rfl⟩

/-- Every element of the list has its value among those returned. -/
theorem Returns.exists_of_mem {f : α → ExprM β} {l : List α} {bs : List β}
    (h : (l.mapM f).Returns env bs) {a : α} (ha : a ∈ l) : ∃ b ∈ bs, (f a).Returns env b := by
  rw [returns_mapM] at h
  induction h with
  | nil => simp at ha
  | cons hb _ ih =>
    rcases List.mem_cons.1 ha with rfl | ha
    · exact ⟨_, by simp, hb⟩
    · obtain ⟨b, hb, h⟩ := ih ha
      exact ⟨b, by simp [hb], h⟩

end ExprM

namespace Heap

variable {env : Env}

@[simp] theorem returns_classConst {p : Path} {x : String} :
    (classConst p).Returns env x ↔ x = Naming.cls p := by
  simp [classConst]

@[simp] theorem returns_fieldHandle {f : Field} {h : FieldHandle} :
    (fieldHandle f).Returns env h ↔
      h = ((env.handles.find? (·.id = f.id)).getD (.ofField f)) := by
  simp [fieldHandle]

@[simp] theorem returns_arrayLength {a e : IL.Expr} :
    (arrayLength a).Returns env e ↔ e = Prelude.arrayLength a := by
  simp [arrayLength]

@[simp] theorem returns_dtypeIs {o e : IL.Expr} {p : Path} :
    (dtypeIs o p).Returns env e ↔ e = .eq (Prelude.dtype o) (.var (Naming.cls p)) := by
  simp [dtypeIs]

end Heap

end ContractLowering
