import ContractLowering.IL.Program
import ContractLowering.ScopeMap

/-!
# Name and arity checking

`check` accepts a program when every name it uses is declared and applications and calls have as
many arguments as declared. Sorts, names (constants, functions and variables) and procedures are
declared in separate name spaces, each name at most once. The sorts of subexpressions are not
inferred.

The variables in scope live in a `ScopeMap` that the checker threads through: a binder opens a
scope and closes it again whether its body passes or not.
-/

namespace ContractLowering.IL

/-- What a declared name stands for. -/
inductive NameKind where
  | const
  | func (arity : Nat)
  | var
deriving DecidableEq, Inhabited

/-- The declared names of a program. Procedures have their numbers of parameters and results. -/
structure Signature where
  sorts : List String := []
  names : List (String × NameKind) := []
  procs : List (String × Nat × Nat) := []
deriving Inhabited

/-- Why a program is refused. -/
inductive CheckError where
  | sortTwice (x : String)
  | nameTwice (x : String)
  | procTwice (x : String)
  | unknownSort (x : String)
  | functionAsVariable (x : String) (arity : Nat)
  | unknownVariable (x : String)
  | oldOfNonVariable (x : String)
  | applicationArity (f : String) (expected found : Nat)
  | unknownFunction (f : String)
  | unknownTarget (x : String)
  | callArity (p : String) (ins outs foundIns foundOuts : Nat)
  | unknownProcedure (p : String)
  | breakOutsideLoop
  | unknownLabel (label : String)
  | modifiesNonVariable (p x : String)
  | unmatchedImplementation (p : String)
  | duplicateLocal (x : String)
  | inProcedure (p : String) (e : CheckError)
  | inImplementation (p : String) (e : CheckError)
deriving DecidableEq, Inhabited

/-- The text of a refusal. -/
def CheckError.render : CheckError → String
  | .sortTwice x => "sort " ++ x ++ " declared twice"
  | .nameTwice x => "name " ++ x ++ " declared twice"
  | .procTwice x => "procedure " ++ x ++ " declared twice"
  | .unknownSort x => "use of undeclared sort " ++ x
  | .functionAsVariable x n =>
    "use of function " ++ x ++ " with " ++ toString n ++ " parameters as a variable"
  | .unknownVariable x => "use of undeclared variable " ++ x
  | .oldOfNonVariable x => "old applied to " ++ x ++ ", which is not a global variable"
  | .applicationArity f n k =>
    "in call to " ++ f ++ ", expected " ++ toString n ++ " arguments, found " ++ toString k
      ++ " arguments"
  | .unknownFunction f => "use of undeclared function " ++ f
  | .unknownTarget x => "assignment to undeclared variable " ++ x
  | .callArity p n m k l =>
    "in call to procedure " ++ p ++ ", expected " ++ toString n ++ " arguments and " ++ toString m
      ++ " results, found " ++ toString k ++ " and " ++ toString l
  | .unknownProcedure p => "call to undeclared procedure " ++ p
  | .breakOutsideLoop => "break outside of a loop"
  | .unknownLabel label => "break to unknown label " ++ label
  | .modifiesNonVariable p x => "procedure " ++ p ++ " modifies " ++ x ++ ", which is not global"
  | .unmatchedImplementation p => "implementation " ++ p ++ " does not match a procedure"
  | .duplicateLocal x => "duplicate local " ++ x
  | .inProcedure p e => "in procedure " ++ p ++ ": " ++ e.render
  | .inImplementation p e => "in implementation " ++ p ++ ": " ++ e.render

namespace Signature

/-- Records a constant, function or variable. -/
def addName (sig : Signature) (x : String) (kind : NameKind) : Except CheckError Signature :=
  if (sig.names.lookup x).isSome then .error (.nameTwice x)
  else .ok { sig with names := (x, kind) :: sig.names }

/-- Records what a declaration declares. -/
def add (sig : Signature) : Decl → Except CheckError Signature
  | .sort x =>
    if sig.sorts.contains x then .error (.sortTwice x) else .ok { sig with sorts := x :: sig.sorts }
  | .const x _ | .uniqueConst x _ => sig.addName x .const
  | .func x args _ => sig.addName x (.func args.length)
  | .var x _ => sig.addName x .var
  | .procedure p =>
    if (sig.procs.lookup p.name).isSome then .error (.procTwice p.name)
    else .ok { sig with procs := (p.name, p.params.length, p.outs.length) :: sig.procs }
  | .fact .. | .implementation _ => .ok sig

/-- The names of a program, refused if one is declared twice. -/
def ofProgram (ds : Program) : Except CheckError Signature := ds.foldlM add {}

/-- Accepts the sorts that are built in or declared. -/
def checkSort (sig : Signature) : Srt → Except CheckError Unit
  | .named x => if sig.sorts.contains x then .ok () else .error (.unknownSort x)
  | .bool | .int | .lambda => .ok ()

/-- Accepts binders whose sorts are all accepted. -/
def checkBinders (sig : Signature) (bs : List Binder) : Except CheckError Unit :=
  bs.forM fun b => sig.checkSort b.2

end Signature

/-- The local variables in scope. -/
abbrev Scope := ScopeMap String Unit

/-- A check under a signature. The scope survives a refusal. -/
abbrev CheckM := ReaderT Signature (ExceptT CheckError (StateM Scope))

namespace CheckM

/-- Runs a check that needs no scope. -/
def lift (e : Except CheckError Unit) : CheckM Unit := fun _ scope => (e, scope)

/-- Refuses. -/
def refuse (e : CheckError) : CheckM Unit := lift (.error e)

/-- Whether a name is a local variable in scope. -/
def isLocal (x : String) : CheckM Bool := return (← get).contains x

/-- Binds names in the innermost scope. -/
def bindNames (xs : List String) : CheckM Unit :=
  modify fun scope => xs.foldl (fun scope x => ((scope.insert? x ()).map (·.2)).getD scope) scope

/-- Runs a check in a scope of its own, which is closed also if the check refuses. -/
def inScope (body : CheckM Unit) : CheckM Unit := fun sig scope =>
  match body sig scope.enter with
  | (result, inner) => (result, inner.leave?.getD scope)

/-- Accepts a name that is in scope or declared as a constant or variable. -/
def checkVar (x : String) : CheckM Unit := do
  if ← isLocal x then return
  match (← read).names.lookup x with
  | some .const | some .var => return
  | some (.func n) => refuse (.functionAsVariable x n)
  | none => refuse (.unknownVariable x)

/-- Accepts a name that may be assigned. -/
def checkTarget (x : String) : CheckM Unit := do
  if (← isLocal x) || (← read).names.lookup x == some .var then return
  refuse (.unknownTarget x)

/-- Accepts sorts of binders. -/
def checkBinders (bs : List Binder) : CheckM Unit := do lift ((← read).checkBinders bs)

end CheckM

open CheckM

mutual

/-- Accepts an expression whose names are declared or in scope with matching arities. -/
def Expr.check : Expr → CheckM Unit
  | .bool _ | .num _ => return
  | .var x => checkVar x
  | .old x => do
    if (← read).names.lookup x == some .var then return
    refuse (.oldOfNonVariable x)
  | .app f args => do
    match (← read).names.lookup f with
    | some (.func n) =>
      if n == args.length then Expr.checkAll args else refuse (.applicationArity f n args.length)
    | _ => refuse (.unknownFunction f)
  | .applyLambda result f args => do
    lift ((← read).checkSort result)
    f.check
    Expr.checkAll args
  | .not e => e.check
  | .binary _ a b => do
    a.check
    b.check
  | .multi _ es => Expr.checkAll es
  | .ite c a b => do
    c.check
    a.check
    b.check
  | .letIn bindings body => do
    Expr.checkBindings bindings
    inScope do
      bindNames (bindings.map (·.1))
      body.check
  | .quant _ binders triggers body => do
    checkBinders binders
    inScope do
      bindNames (binders.map (·.1))
      Expr.checkTriggers triggers
      body.check
  | .lambda binders body => do
    checkBinders binders
    inScope do
      bindNames (binders.map (·.1))
      body.check

/-- Accepts expressions one after the other. -/
def Expr.checkAll : List Expr → CheckM Unit
  | [] => return
  | e :: es => do
    e.check
    Expr.checkAll es

/-- Accepts the values of a let, which do not see its binders. -/
def Expr.checkBindings : List (String × Expr) → CheckM Unit
  | [] => return
  | (_, e) :: bs => do
    e.check
    Expr.checkBindings bs

/-- Accepts triggers one after the other. -/
def Expr.checkTriggers : List (List Expr) → CheckM Unit
  | [] => return
  | t :: ts => do
    Expr.checkAll t
    Expr.checkTriggers ts

end

/-- The label under which the checker keeps an enclosing loop. -/
def loopLabel : String := "%loop"

/-- Accepts an optional guard. -/
def Expr.checkGuard : Option Expr → CheckM Unit
  | none => return
  | some e => e.check

/-- Accepts the expressions of clauses. -/
def Clause.checkAll (cs : List Clause) : CheckM Unit := Expr.checkAll (cs.map (·.expr))

mutual

/-- Accepts a statement under the labels of the loops and blocks around it. -/
def Stmt.check (labels : List String) : Stmt → CheckM Unit
  | .assume e | .assert _ e => e.check
  | .havoc x => checkTarget x
  | .assign x e => do
    checkTarget x
    e.check
  | .call p args outs => do
    match (← read).procs.lookup p with
    | some (n, m) =>
      if n == args.length && m == outs.length then
        Expr.checkAll args
        outs.forM checkTarget
      else refuse (.callArity p n m args.length outs.length)
    | none => refuse (.unknownProcedure p)
  | .ifElse guard thn els => do
    Expr.checkGuard guard
    Stmt.checkAll labels thn
    Stmt.checkAll labels els
  | .loop guard invariants body => do
    Expr.checkGuard guard
    Clause.checkAll invariants
    Stmt.checkAll (loopLabel :: labels) body
  | .leave none => if labels.contains loopLabel then return else refuse .breakOutsideLoop
  | .leave (some label) =>
    if labels.contains label then return else refuse (.unknownLabel label)
  | .block label body => Stmt.checkAll (label.toList ++ labels) body
  | .ret => return

/-- Accepts statements one after the other. -/
def Stmt.checkAll (labels : List String) : List Stmt → CheckM Unit
  | [] => return
  | s :: ss => do
    s.check labels
    Stmt.checkAll labels ss

end

/-- Puts the refusals of a check into a context. -/
def CheckM.within (context : CheckError → CheckError) (body : CheckM Unit) : CheckM Unit :=
  fun sig scope =>
    match body sig scope with
    | (.error e, scope) => (.error (context e), scope)
    | (.ok (), scope) => (.ok (), scope)

/-- Accepts a procedure: its sorts, its modifies list, its requires clauses over the parameters
and its ensures clauses over the parameters and results. -/
def Procedure.check (p : Procedure) : CheckM Unit := do
  checkBinders p.params
  checkBinders p.outs
  p.modifies.forM fun x => do
    unless (← read).names.lookup x == some .var do
      refuse (.modifiesNonVariable p.name x)
  within (.inProcedure p.name) <| inScope do
    bindNames (p.params.map (·.1))
    Clause.checkAll p.requires
    bindNames (p.outs.map (·.1))
    Clause.checkAll p.ensures

/-- The first name that occurs again later in the list after its first occurrence, in the order
of the second occurrences. -/
def firstRepeated? (seen : List String) : List String → Option String
  | [] => none
  | x :: xs => if seen.contains x then some x else firstRepeated? (x :: seen) xs

/-- Accepts a body: its procedure is declared with the same counts, the sorts of its locals are
declared, no name is bound twice, and its statements pass. -/
def Implementation.check (i : Implementation) : CheckM Unit := do
  if (← read).procs.lookup i.name != some (i.params.length, i.outs.length) then
    refuse (.unmatchedImplementation i.name)
  checkBinders i.locals
  let names := (i.params ++ i.outs ++ i.locals).map (·.1)
  within (.inImplementation i.name) <|
    match firstRepeated? [] names with
    | some x => refuse (.duplicateLocal x)
    | none => inScope do
      bindNames names
      Stmt.checkAll [] i.body

/-- Accepts a declaration under the signature of the whole program. -/
def Decl.check : Decl → CheckM Unit
  | .sort _ => return
  | .const _ s | .uniqueConst _ s | .var _ s => do lift ((← read).checkSort s)
  | .func _ args result => do
    let sig ← read
    lift (args.forM sig.checkSort)
    lift (sig.checkSort result)
  | .fact _ e => e.check
  | .procedure p => p.check
  | .implementation i => i.check

/-- Accepts the declarations of a program one after the other. -/
def Decl.checkAll (ds : List Decl) : CheckM Unit := ds.forM Decl.check

/-- Accepts a program, or says what is wrong with it first. Repeated declarations anywhere are
reported before the uses of any name. -/
def check (ds : Program) : Except CheckError Unit := do
  let sig ← Signature.ofProgram ds
  ((Decl.checkAll ds).run sig |>.run .empty).1

end ContractLowering.IL
