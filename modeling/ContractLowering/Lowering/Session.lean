import ContractLowering.Lowering.Datatype
import ContractLowering.Lowering.Iterator

/-!
# Sessions

A session lowers declarations one by one, in any order, in one context. It may also enter a
declaration itself and take fresh numbers there; until it leaves, nothing else can be entered or
lowered.
-/

namespace ContractLowering

open Source

/-- What can be lowered on its own: a declaration, or a member of a class. -/
inductive Lowerable where
  | cls (k : Source.Class)
  | datatype (d : Datatype)
  | function (f : Function)
  | method (m : Method)
  | iterator (i : Iterator)
deriving Inhabited

namespace Lowerable

/-- Lowers it, in scopes of its own. -/
def lower : Lowerable → DeclM Unit
  | .cls k => k.lower
  | .datatype d => d.lower
  | .function f => f.lower
  | .method m => m.lower
  | .iterator i => i.lower

/-- Where it stands in the source. -/
def span : Lowerable → Span
  | .cls k => k.span
  | .datatype d => d.span
  | .function f => f.span
  | .method m => m.span
  | .iterator i => i.span

end Lowerable

/-- What was done so far, and whether the session is inside a declaration that it entered. -/
structure Session where
  progress : Progress := {}
  held : Bool := false
deriving Inhabited

namespace Session

/-- What a session can do. -/
inductive Step where
  | enter (span : Span) (module : String) (member : Option Path)
  | exit
  | freshId
  | lower (d : Lowerable)
deriving Inhabited

/-- What it answers: that a step was done, whether there was something to leave, a number, or why
a step was not done. -/
inductive Answer where
  | done
  | left (held : Bool)
  | number (n : Nat)
  | fault (f : Fault)
deriving Inhabited

/-- One step. -/
def step (c : Context) (s : Session) : Step → Answer × Session
  | .enter span module member =>
    match s.progress.enter span module member with
    | .ok progress => (.done, ⟨progress, true⟩)
    | .error m => (.fault (.rejected m), s)
  | .exit => (.left s.held, if s.held then ⟨s.progress.leave, false⟩ else s)
  | .freshId =>
    let (n, progress) := s.progress.freshId
    (.number n, { s with progress })
  | .lower d =>
    match d.lower c s.progress with
    | (.ok (), progress) => (.done, { s with progress })
    | (.error f, progress) => (.fault f, { s with progress })

/-- A step that was taken: the session before, the answer, and the session after. -/
structure Transition where
  before : Session
  step : Step
  answer : Answer
  after : Session

/-- The session after steps. -/
def after (c : Context) (s : Session) (steps : List Step) : Session :=
  steps.foldl (fun s st => (s.step c st).2) s

/-- The steps that are taken, in order. -/
def transitions (c : Context) (s : Session) : List Step → List Transition
  | [] => []
  | st :: steps =>
    let (answer, next) := s.step c st
    ⟨s, st, answer, next⟩ :: next.transitions c steps

end Session

end ContractLowering
