import ContractLowering.Lowering.DeclM
import ContractLowering.Lowering.Termination
import ContractLowering.Source.Subst

/-!
# Induction

A universal goal, or a lemma, may be proved by induction: the goal at some values may be assumed
at all smaller ones. `inductionVars` says on which variables, `quantifierObligations` gives what
is left to prove of a quantifier, one obligation for each constructor of the first variable of a
datatype, and `lemmaHypothesis` what a lemma may assume of itself.
-/

namespace ContractLowering

open IL Source

/-- Whether induction on values of a type is considered. -/
def Source.Typ.isInductive : Typ → Bool
  | .nat | .datatype .. | .seq _ => true
  | _ => false

namespace Induction

/-- The calls in expressions, each with its receiver and arguments. -/
def calls (es : List Source.Expr) : List (Path × List Source.Expr) :=
  es.flatMap fun e => e.subexprs.filterMap fun
    | .call _ f receiver args => some (f, receiver.toList ++ args)
    | _ => none

/-- The variables that are arguments by themselves. -/
def direct (args : List Source.Expr) : List String :=
  args.filterMap fun
    | .var _ x => some x
    | _ => none

/-- The variables that induction may be on, at a level of choosiness. -/
def candidates (level : Nat) (es : List Source.Expr) : ExprM (List String) := do
  let graph := (← ExprM.env).context.calls
  match level with
  | 0 => return es.flatMap Source.Expr.freeVars
  | 1 => return (calls es).flatMap fun c => c.2.flatMap Source.Expr.freeVars
  | 2 => return (calls es).flatMap fun c => direct c.2
  | _ => return ((calls es).filter fun c => graph.isRecursive c.1).flatMap fun c => direct c.2

/-- The binders of some variables, in the order of the binders. -/
def named (xs : List String) (bs : List Source.Binder) : List Source.Binder :=
  bs.filter fun b => xs.contains b.1

/-- Fresh copies of bound variables. -/
def renamed (n : Nat) (bs : List Source.Binder) : List Source.Binder :=
  bs.map fun b => (Naming.renamed b.1 n, b.2)

/-- The substitution of fresh copies for bound variables. -/
def toCopies (span : Span) (n : Nat) (bs : List Source.Binder) : Subst :=
  .ofBindings none (bs.map fun b => (b.1, .mkVar span (Naming.renamed b.1 n) b.2))

/-- Variables as components of a measure. -/
def varValues (bs : List Source.Binder) : List MeasureValue :=
  bs.map fun b => ⟨b.2, .var b.1, false⟩

/-- That a goal holds for all smaller values of the variables. -/
def hypothesis (v : View) (span : Span) (binders vars : List Source.Binder)
    (goal : Subst → ExprM IL.Expr) : DeclM IL.Expr := do
  let n ← DeclM.freshId
  let copies := renamed n binders
  let smaller := Termination.decreases false (varValues vars) (varValues (renamed n vars))
  let wheres ← bindersWhere v.heap copies
  let g ← goal (toCopies span n binders)
  return .all (sortBinders copies) [] (.imp (.conj [wheres, smaller]) g)

/-- The cases of the first variable of a datatype, or a single trivial one. -/
def caseSplit : List Source.Binder → ExprM (List IL.Expr)
  | [] => return [.tt]
  | (x, .datatype path _) :: _ => do
    let d ← ExprM.datatype path
    return d.ctors.map fun c => .app (Naming.isCtor path c.name) [.var x]
  | _ :: vars => caseSplit vars

end Induction

/-- The variables to prove expressions by induction on, in the order of the binders. -/
def inductionVars (attr : Induction) (binders : List Source.Binder) (es : List Source.Expr) :
    ExprM (List Source.Binder) :=
  match attr with
  | .off => return []
  | .vars xs => return Induction.named xs binders
  | .default => do
    let found ← Induction.candidates (← ExprM.options).induction es
    return binders.filter fun b => b.2.isInductive && found.contains b.1

/-- What is to be proved of a quantifier that is proved by induction. -/
def quantifierObligations (v : View) (span : Span) (binders vars : List Source.Binder)
    (range : Option Source.Expr) (body : Source.Expr) : DeclM (List IL.Expr) := do
  let goal := fun (s : Subst) => do
    let b ← lowerExpr v (body.subst s)
    match range with
    | none => return b
    | some r => return .imp (← lowerExpr v (r.subst s)) b
  let ih ← Induction.hypothesis v span binders vars goal
  let g ← goal {}
  let wheres ← bindersWhere v.heap binders
  let cases ← Induction.caseSplit vars
  return cases.map fun c => .all (sortBinders binders) [] (.imp (.conj [wheres, c, ih]) g)

/-- What a lemma may assume of itself at smaller arguments. -/
def lemmaHypothesis (v : View) (span : Span) (ins vars : List Source.Binder)
    (requires ensures : List Source.Expr) : DeclM IL.Expr :=
  Induction.hypothesis v span ins vars fun s => do
    let pre ← requires.mapM fun e => lowerExpr v (e.subst s)
    let post ← ensures.mapM fun e => lowerExpr v (e.subst s)
    return .imp (.conj pre) (.conj post)

end ContractLowering
