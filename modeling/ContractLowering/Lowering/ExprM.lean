import ContractLowering.Context

/-!
# Computations that lower expressions

Lowering an expression reads an environment and has two results: a value, or what is broken about
the input, and the heap declarations it asked for on the way. Requests are kept also when the
computation breaks. The value depends on the environment alone: a field keeps the handle under
which it was declared first, and the environment knows the handles given out so far.
-/

namespace ContractLowering

open Source

/-- How a field appears in lowered programs: a constant of sort `Field` if it is mutable, else a
function of its object. -/
structure FieldHandle where
  id : FieldId
  name : String
  isMutable : Bool
  typ : Typ
deriving Inhabited

/-- The handle of a field that is declared for the first time. -/
def FieldHandle.ofField (f : Field) : FieldHandle := ⟨f.id, Naming.field f.id, f.isMutable, f.typ⟩

/-- What an expression lowering reads: the declarations, the member and module whose code is being
lowered, and the fields declared so far. -/
structure Env where
  context : Context
  member : Option Path := none
  module : Option String := none
  handles : List FieldHandle := []
deriving Inhabited

/-- A declaration of the heap model that lowered code refers to. -/
inductive Request where
  | cls (p : Path)
  | field (f : Field)
  | arrayLength
deriving Inhabited

/-- The requests of a computation, oldest first, and its result. -/
structure Outcome (α : Type) where
  requests : List Request
  result : Except Broken α

/-- Computations that lower expressions. -/
def ExprM (α : Type) : Type := Env → Outcome α

namespace ExprM

/-- A computation after another, which a broken one cuts short. -/
def seq {α β : Type} (x : ExprM α) (f : α → ExprM β) : ExprM β := fun env =>
  match x env with
  | ⟨rs, .error b⟩ => ⟨rs, .error b⟩
  | ⟨rs, .ok a⟩ =>
    let y := f a env
    ⟨rs ++ y.requests, y.result⟩

instance : Monad ExprM where
  pure a := fun _ => ⟨[], .ok a⟩
  bind := seq

/-- The environment. -/
def env : ExprM Env := fun env => ⟨[], .ok env⟩

/-- A result that needs no request. -/
def ofExcept {α : Type} (r : Except Broken α) : ExprM α := fun _ => ⟨[], r⟩

/-- Stops because the input is broken. -/
def broken {α : Type} (b : Broken) : ExprM α := ofExcept (.error b)

/-- Asks for a declaration of the heap model. -/
def request (r : Request) : ExprM Unit := fun _ => ⟨[r], .ok ()⟩

def options : ExprM Options := return (← env).context.options
def function (p : Path) : ExprM Function := do ofExcept ((← env).context.function p)
def datatype (p : Path) : ExprM Datatype := do ofExcept ((← env).context.datatype p)
def field (f : FieldId) : ExprM Field := do ofExcept ((← env).context.field f)

/-- Whether a member calls itself, directly or through others. -/
def isRecursive (p : Path) : ExprM Bool := return (← env).context.calls.isRecursive p

/-- Whether two members are the same or mutually recursive. -/
def inSameComponent (p q : Path) : ExprM Bool := return (← env).context.calls.inSameComponent p q

/-- Whether a member belongs to the module whose code is being lowered. -/
def isSameModule (p : Path) : ExprM Bool := return (← env).module == some p.module

end ExprM

end ContractLowering
