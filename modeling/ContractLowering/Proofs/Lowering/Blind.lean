import ContractLowering.Proofs.Lowering.Traits

/-!
# Expression lowering does not see inherited flags

A computation is `Blind` if it gives the same in the environment of a program and in that of the
plain program. Whether a clause is inherited is not an expression, so this is a trait of all
lowerings of expressions; what they read of a function is not touched by clearing the flags.
-/

namespace ContractLowering

open IL Source

/-- The environment of the plain declarations. -/
def Env.plain (env : Env) : Env := { env with context := env.context.plain }

namespace ExprM

/-- A sequence gives and asks for the same in both environments if its parts do. -/
theorem bind_plain {α β : Type} {x : ExprM α} {f : α → ExprM β} (hx : ∀ env, x env.plain = x env)
    (hf : ∀ a env, f a env.plain = f a env) (env : Env) : (x >>= f) env.plain = (x >>= f) env := by
  show seq x f env.plain = seq x f env
  unfold seq
  rw [hx env]
  rcases x env with ⟨rs, b | a⟩
  · rfl
  · dsimp only
    rw [hf a env]

/-- Giving and asking for the same when nothing counts as inherited. -/
def Trait.blind : Trait where
  Has x := ∀ env : Env, x env.plain = x env
  pure _ _ := rfl
  ofExcept _ _ := rfl
  bind := bind_plain
  options _ := rfl
  datatype _ _ := rfl
  field _ _ := rfl
  isRecursive _ _ := rfl
  inSameComponent _ _ _ := rfl
  isSameModule _ _ := rfl
  classConst _ _ := rfl
  arrayLength _ _ := rfl
  function {β} p k h hk env := by
    show seq (ExprM.function p) k env.plain = seq (ExprM.function p) k env
    have hf : ExprM.function p env.plain = ⟨[], (env.context.function p).map Function.plain⟩ := by
      show (⟨[], env.context.plain.function p⟩ : Outcome Function) = _
      rw [Context.function_plain]
    unfold seq
    rw [hf, show ExprM.function p env = ⟨[], env.context.function p⟩ from rfl]
    cases env.context.function p with
    | error b => rfl
    | ok f =>
      show (⟨_, _⟩ : Outcome β) = ⟨_, _⟩
      rw [hk, h f env]
  fieldHandle _ _ h := bind_plain (fun _ => rfl) fun f => bind_plain (fun _ => rfl) (h f)
  env {β} k h hk env := by
    show (⟨_, _⟩ : Outcome β) = ⟨_, _⟩
    rw [show k env.plain env.plain = k env env by
      rw [@hk env env.plain rfl rfl, h env env]]

/-- A computation that gives and asks for the same when nothing counts as inherited. -/
abbrev Blind {α : Type} (x : ExprM α) : Prop := Trait.blind.Has x

theorem Blind.fieldHandle (f : Field) : (Heap.fieldHandle f).Blind := fun _ => rfl

end ExprM

end ContractLowering
