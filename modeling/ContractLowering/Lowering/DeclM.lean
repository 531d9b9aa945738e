import ContractLowering.IL.Program
import ContractLowering.Lowering.Heap

/-!
# Computations that lower declarations

Lowering a declaration emits declarations of the target, takes fresh numbers and collects the
locals of the implementation it builds. The state of one declaration begins when the declaration
is entered and is gone when it is left, however it is left; only one is lowered at a time.

What expression lowerings ask for is declared here, each class, field and fact once.
-/

namespace ContractLowering

open IL Source

/-- Why a declaration was not lowered: the input is broken, or it is refused with a message. -/
inductive Fault where
  | broken (b : Broken)
  | rejected (m : Message)
deriving Inhabited

/-- The state of the declaration that is being lowered. -/
structure DeclState where
  inProgress : Bool := false
  module : Option String := none
  member : Option Path := none
  /-- The variable that counts yields, in the body of an iterator. -/
  yieldCount : Option String := none
  /-- The last fresh number taken. -/
  counter : Nat := 0
  /-- The locals of the implementation that is being built. -/
  locals : List IL.Binder := []
  /-- The error of the first local that was declared with two sorts. -/
  clash : Option Message := none
deriving Inhabited

/-- What has been emitted, what of the heap model has been declared, and the declaration that is
being lowered. -/
structure Progress where
  emitted : IL.ProgramBuilder := {}
  handles : List FieldHandle := []
  classes : List Path := []
  hasArrayLength : Bool := false
  /-- What was asked for so far, the latest request first, whether or not it was declared then. -/
  requested : List Request := []
  decl : DeclState := {}
deriving Inhabited

/-- How messages show a sort. -/
def IL.Srt.describe : IL.Srt → String
  | .bool => "Bool"
  | .int => "Int"
  | .lambda => "Lambda"
  | .named x => "Named(" ++ Text.quoted x ++ ")"

/-- A declaration as one more local. Declaring one again with its own sort changes nothing, with
another sort it is a clash, of which the first is kept. -/
def DeclState.declareLocal (d : DeclState) (x : String) (s : Srt) : DeclState :=
  match d.locals.lookup x with
  | none => { d with locals := d.locals ++ [(x, s)] }
  | some before =>
    if before = s || d.clash.isSome then d
    else { d with clash := some (.bare ("internal error: local " ++ x ++ " declared with sorts "
      ++ before.describe ++ " and " ++ s.describe)) }

namespace Progress

/-- Emits a declaration. -/
def emit (s : Progress) (d : IL.Decl) : Progress := { s with emitted := s.emitted.push d }

/-- Emits declarations in order. -/
def emitAll (s : Progress) (ds : List IL.Decl) : Progress :=
  { s with emitted := s.emitted.extend ds }

/-- Notes a request. -/
def ask (s : Progress) (r : Request) : Progress := { s with requested := r :: s.requested }

/-- Declares the constant of a class, unless it is declared. -/
def declareClass (s : Progress) (p : Path) : Progress :=
  if s.classes.contains p then s
  else { s.emit (Request.classDecl p) with classes := p :: s.classes }

/-- Declares a field, unless it is declared. A mutable one asks for the constant of its class. -/
def declareField (s : Progress) (f : Field) : Progress :=
  if s.handles.any (·.id = f.id) then s
  else
    let s := if f.isMutable then (s.ask (.cls f.id.owner)).declareClass f.id.owner else s
    { s.emitAll (Request.fieldDecls f) with handles := .ofField f :: s.handles }

/-- Declares the fact about array lengths, unless it is declared. -/
def declareArrayLength (s : Progress) : Progress :=
  if s.hasArrayLength then s
  else { s.emit Request.arrayLengthDecl with hasArrayLength := true }

/-- Declares what was asked for. -/
def declare (s : Progress) (r : Request) : Progress :=
  let s := s.ask r
  match r with
  | .cls p => s.declareClass p
  | .field f => s.declareField f
  | .arrayLength => s.declareArrayLength

/-- Enters a declaration, unless another one is being lowered. -/
def enter (s : Progress) (span : Span) (module : String) (member : Option Path) :
    Except Message Progress :=
  if s.decl.inProgress then
    .error (.internal
      "translation of a declaration started while another one is in progress" span)
  else .ok { s with decl := { inProgress := true, module := some module, member } }

/-- Leaves the declaration that is being lowered. -/
def leave (s : Progress) : Progress := { s with decl := {} }

/-- A fresh number, different from all others of the declaration. -/
def freshId (s : Progress) : Nat × Progress :=
  let n := s.decl.counter + 1
  (n, { s with decl := { s.decl with counter := n } })

/-- The environment in which expressions are lowered. -/
def env (s : Progress) (c : Context) : Env := ⟨c, s.decl.member, s.decl.module, s.handles⟩

end Progress

/-- Computations that lower declarations. What was done before a fault stays done. -/
def DeclM (α : Type) : Type := Context → Progress → Except Fault α × Progress

namespace DeclM

/-- A computation after another, which a fault cuts short. -/
def seq {α β : Type} (x : DeclM α) (f : α → DeclM β) : DeclM β := fun c s =>
  match x c s with
  | (.ok a, s) => f a c s
  | (.error e, s) => (.error e, s)

instance : Monad DeclM where
  pure a := fun _ s => (.ok a, s)
  bind := seq

/-- Lowers an expression, and declares what it asks for. -/
def ofExpr {α : Type} (x : ExprM α) : DeclM α := fun c s =>
  let out := x (s.env c)
  (out.result.mapError .broken, out.requests.foldl Progress.declare s)

instance : MonadLift ExprM DeclM := ⟨ofExpr⟩

def context : DeclM Context := fun c s => (.ok c, s)
def state : DeclM Progress := fun _ s => (.ok s, s)

/-- Changes the state. -/
def update (f : Progress → Progress) : DeclM Unit := fun _ s => (.ok (), f s)

/-- Refuses the input. -/
def reject {α : Type} (m : Message) : DeclM α := fun _ s => (.error (.rejected m), s)

/-- Emits a declaration. -/
def emit (d : IL.Decl) : DeclM Unit := update (·.emit d)

/-- Emits a fact without a name. -/
def emitFact (e : IL.Expr) : DeclM Unit := emit (.fact none e)

/-- A fresh number. -/
def freshId : DeclM Nat := fun _ s => let (n, s) := s.freshId; (.ok n, s)

/-- Declares a local of the implementation that is being built. -/
def declareLocal (x : String) (sort : Srt) : DeclM Unit :=
  update fun s => { s with decl := s.decl.declareLocal x sort }

/-- Takes all locals out of the state. A clash is reported here, once. -/
def takeLocals : DeclM (List IL.Binder) := fun _ s =>
  let cleared := { s with decl := { s.decl with locals := [], clash := none } }
  match s.decl.clash with
  | some m => (.error (.rejected m), cleared)
  | none => (.ok s.decl.locals, cleared)

/-- Names the variable that counts yields. -/
def setYieldCount (x : String) : DeclM Unit :=
  update fun s => { s with decl := { s.decl with yieldCount := some x } }

/-- Lowers a declaration under a state of its own. -/
def within {α : Type} (span : Span) (module : String) (member : Option Path) (body : DeclM α) :
    DeclM α := fun c s =>
  match s.enter span module member with
  | .error m => (.error (.rejected m), s)
  | .ok entered =>
    let (r, s) := body c entered
    (r, s.leave)

end DeclM

end ContractLowering
