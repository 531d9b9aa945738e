import ContractLowering.Prelude.Names

/-!
# Choosing triggers

A candidate is an application in the body of a quantifier, outside inner binders, that mentions a
bound variable, whose head neither boxes nor unboxes, and whose arguments are built from
variables, constants and applications alone. If a candidate mentions all bound variables the
smallest such one is the trigger; else candidates are collected until all variables are covered,
those with more variables first.
-/

namespace ContractLowering.Triggers

open IL

mutual

/-- Whether an expression is built from variables, constants and applications alone. -/
def isTerm : Expr → Bool
  | .bool _ | .num _ | .var _ | .old _ => true
  | .app _ args => areTerms args
  | _ => false

/-- Whether all expressions are so built. -/
def areTerms : List Expr → Bool
  | [] => true
  | e :: es => isTerm e && areTerms es

end

mutual

/-- The number of variables, constants and applications in a term. -/
def size : Expr → Nat
  | .app _ args => 1 + sizes args
  | _ => 1

/-- The sum of sizes. -/
def sizes : List Expr → Nat
  | [] => 0
  | e :: es => size e + sizes es

end

mutual

/-- The occurrences of variables in a term. -/
def vars : Expr → List String
  | .var x => [x]
  | .app _ args => varsList args
  | _ => []

/-- The occurrences of variables in several terms. -/
def varsList : List Expr → List String
  | [] => []
  | e :: es => vars e ++ varsList es

end

/-- The bound variables a term mentions, each once. -/
def mentioned (bound : List String) (t : Expr) : List String :=
  ((vars t).filter bound.contains).eraseDups

/-- Whether a function boxes or unboxes. -/
def isBoxing (f : String) : Bool :=
  (Prelude.BoxSort.ofBoxName? f).isSome || (Prelude.BoxSort.ofUnboxName? f).isSome

/-- Whether an application may be a trigger for the bound variables. -/
def isCandidate (bound : List String) (f : String) (args : List Expr) : Bool :=
  !isBoxing f && areTerms args && (varsList args).any bound.contains

mutual

/-- The candidates in an expression, outer ones first. -/
def candidates (bound : List String) : Expr → List Expr
  | .app f args =>
    (if isCandidate bound f args then [.app f args] else []) ++ candidatesList bound args
  | .applyLambda _ f args => candidates bound f ++ candidatesList bound args
  | .not e => candidates bound e
  | .binary _ a b => candidates bound a ++ candidates bound b
  | .multi _ es => candidatesList bound es
  | .ite c a b => candidates bound c ++ candidates bound a ++ candidates bound b
  | .bool _ | .num _ | .var _ | .old _ | .letIn .. | .quant .. | .lambda .. => []

/-- The candidates in several expressions. -/
def candidatesList (bound : List String) : List Expr → List Expr
  | [] => []
  | e :: es => candidates bound e ++ candidatesList bound es

end

/-- The first of the smallest terms. -/
def smallest? : List Expr → Option Expr
  | [] => none
  | t :: ts => match smallest? ts with
    | none => some t
    | some u => if size t ≤ size u then some t else some u

/-- Whether a candidate is taken before another: it mentions more variables, or as many and is not
larger. -/
def before (bound : List String) (t u : Expr) : Bool :=
  let n := (mentioned bound t).length
  let m := (mentioned bound u).length
  m < n || (m == n && size t ≤ size u)

/-- The candidates that each add a variable to those covered, up to the one that completes the
cover; `none` if the cover stays incomplete. -/
def cover? (bound : List String) : List String → List Expr → Option (List Expr)
  | _, [] => none
  | covered, t :: ts =>
    let new := (mentioned bound t).filter fun x => !covered.contains x
    let covered := covered ++ new
    let taken := if new.isEmpty then [] else [t]
    if covered.length == bound.length then some taken
    else (cover? bound covered ts).map (taken ++ ·)

/-- Triggers for a quantifier over the bound variables: at most one, and none if the variables
cannot be covered. -/
def select (bound : List String) (body : Expr) : List Trigger :=
  if bound.isEmpty then []
  else
    let found := candidates bound body
    let full := found.filter fun t => (mentioned bound t).length == bound.length
    match smallest? full with
    | some t => [[t]]
    | none => (cover? bound [] (found.mergeSort (before bound))).toList

end ContractLowering.Triggers
