import ContractLowering.Source.Subexpr

/-!
# Statements of the source language

Statements with their contracts. Local names are unique within a member. `Stmt.substmts` lists a
statement with all statements inside it, and `Stmt.exprs` the expressions they hold, contracts
included.
-/

namespace ContractLowering.Source

/-- A contract clause. Free clauses are assumed and never checked; an inherited one was verified
with the declaration it is taken from. -/
structure Spec where
  expr : Expr
  free : Bool
  inherited : Bool
deriving Inhabited

/-- A termination measure. With a wildcard the measure only has to stay as small. -/
structure Decreases where
  span : Span
  exprs : List Expr
  wildcard : Bool
deriving Inhabited

/-- The target of an assignment. A range gives one value to several array elements. -/
inductive Lhs where
  | var (span : Span) (x : String) (typ : Typ)
  | field (span : Span) (e : Expr) (f : FieldId)
  | index (span : Span) (array i : Expr)
  | range (span : Span) (array lo hi : Expr)
deriving Inhabited

/-- The value of an assignment: an expression, any value of a type, or an allocation. -/
inductive Rhs where
  | expr (e : Expr)
  | havoc (typ : Typ)
  | new (path : Path) (args : List Typ)
  | newArray (elem : Typ) (length : Expr)
deriving Inhabited

/-- The relations between the lines of a calculation. -/
inductive CalcOp where
  | eq
  | lt
  | le
  | gt
  | ge
  | implies
  | iff
deriving DecidableEq, Inhabited

/-- What a loop says about itself. -/
structure LoopSpec where
  label : Option String
  invariants : List Spec
  decreases : Option Decreases
  modifies : Option (List Expr)
deriving Inhabited

/-- Bound variables with an optional range. -/
structure Domain where
  binders : List Binder
  range : Option Expr
deriving Inhabited

/-- Statements. A missing guard is a free choice. The body of a loop over alternatives lives in
the alternatives. -/
inductive Stmt where
  | block (span : Span) (body : List Stmt)
  | varDecl (span : Span) (x : String) (typ : Typ) (rhs : Option Rhs)
  | assign (span : Span) (lhss : List Lhs) (rhss : List Rhs)
  | call (span : Span) (m : Path) (receiver : Option Expr) (args : List Expr) (outs : List Lhs)
  | ifElse (span : Span) (guard : Option Expr) (thn : Stmt) (els : Option Stmt)
  | altIf (span : Span) (alternatives : List (Expr × Stmt))
  | loop (span : Span) (spec : LoopSpec) (guard : Option Expr) (body : Option Stmt)
  | altLoop (span : Span) (spec : LoopSpec) (alternatives : List (Expr × Stmt))
      (body : Option Stmt)
  | cases (span : Span) (e : Expr) (arms : List (Pattern × Stmt))
  | calc (span : Span) (first : Expr) (steps : List ((CalcOp × Expr) × Option Stmt))
  | forallAssign (span : Span) (domain : Domain) (lhs : Lhs) (value : Expr)
  | forallCall (span : Span) (domain : Domain) (m : Path) (receiver : Option Expr)
      (args : List Expr)
  | forallProof (span : Span) (domain : Domain) (ensures : List Spec) (body : Stmt)
  | assert (span : Span) (e : Expr) (inherited : Bool)
  | assume (span : Span) (e : Expr)
  | ret (span : Span) (values : Option (List Expr))
  | yield (span : Span) (values : Option (List Expr))
  | leave (span : Span) (label : Option String)
deriving Inhabited

/-- The place of a target. -/
def Lhs.span : Lhs → Span
  | .var s .. | .field s .. | .index s .. | .range s .. => s

/-- The expressions of a target. -/
def Lhs.exprs : Lhs → List Expr
  | .var .. => []
  | .field _ e _ => [e]
  | .index _ a i => [a, i]
  | .range _ a lo hi => [a, lo, hi]

/-- The expressions of an assigned value. -/
def Rhs.exprs : Rhs → List Expr
  | .expr e | .newArray _ e => [e]
  | .havoc _ | .new .. => []

/-- The expressions of a loop's own contract. -/
def LoopSpec.exprs (s : LoopSpec) : List Expr :=
  s.invariants.map (·.expr) ++ (s.decreases.map (·.exprs)).getD [] ++ s.modifies.getD []

namespace Stmt

/-- The place of a statement. -/
def span : Stmt → Span
  | .block s .. | .varDecl s .. | .assign s .. | .call s .. | .ifElse s .. | .altIf s ..
  | .loop s .. | .altLoop s .. | .cases s .. | .calc s .. | .forallAssign s .. | .forallCall s ..
  | .forallProof s .. | .assert s .. | .assume s .. | .ret s .. | .yield s .. | .leave s .. => s

mutual

/-- A statement and all statements inside it, outer ones first. -/
def substmts : Stmt → List Stmt
  | .block s body => .block s body :: substmtsList body
  | .varDecl s x t rhs => [.varDecl s x t rhs]
  | .assign s l r => [.assign s l r]
  | .call s m r a o => [.call s m r a o]
  | .ifElse s g a b => .ifElse s g a b :: (a.substmts ++ substmts? b)
  | .altIf s alts => .altIf s alts :: substmtsAlternatives alts
  | .loop s spec g body => .loop s spec g body :: substmts? body
  | .altLoop s spec alts body =>
    .altLoop s spec alts body :: (substmtsAlternatives alts ++ substmts? body)
  | .cases s e arms => .cases s e arms :: substmtsArms arms
  | .calc s e steps => .calc s e steps :: substmtsSteps steps
  | .forallAssign s d l e => [.forallAssign s d l e]
  | .forallCall s d m r a => [.forallCall s d m r a]
  | .forallProof s d ens body => .forallProof s d ens body :: body.substmts
  | .assert s e i => [.assert s e i]
  | .assume s e => [.assume s e]
  | .ret s es => [.ret s es]
  | .yield s es => [.yield s es]
  | .leave s l => [.leave s l]

/-- The statements inside an optional statement. -/
def substmts? : Option Stmt → List Stmt
  | none => []
  | some s => s.substmts

/-- The statements inside several statements. -/
def substmtsList : List Stmt → List Stmt
  | [] => []
  | s :: ss => s.substmts ++ substmtsList ss

/-- The statements inside alternatives. -/
def substmtsAlternatives : List (Expr × Stmt) → List Stmt
  | [] => []
  | (_, s) :: alts => s.substmts ++ substmtsAlternatives alts

/-- The statements inside match cases. -/
def substmtsArms : List (Pattern × Stmt) → List Stmt
  | [] => []
  | (_, s) :: arms => s.substmts ++ substmtsArms arms

/-- The statements inside the hints of a calculation. -/
def substmtsSteps : List ((CalcOp × Expr) × Option Stmt) → List Stmt
  | [] => []
  | (_, hint) :: steps => substmts? hint ++ substmtsSteps steps

end

/-- The expressions a statement holds itself, not those of the statements inside it. -/
def ownExprs : Stmt → List Expr
  | .block .. | .leave .. => []
  | .varDecl _ _ _ rhs => (rhs.map Rhs.exprs).getD []
  | .assign _ lhss rhss => lhss.flatMap Lhs.exprs ++ rhss.flatMap Rhs.exprs
  | .call _ _ receiver args outs => receiver.toList ++ args ++ outs.flatMap Lhs.exprs
  | .ifElse _ guard _ _ => guard.toList
  | .altIf _ alts => alts.map (·.1)
  | .loop _ spec guard _ => guard.toList ++ spec.exprs
  | .altLoop _ spec alts _ => alts.map (·.1) ++ spec.exprs
  | .cases _ e _ => [e]
  | .calc _ first steps => first :: steps.map (·.1.2)
  | .forallAssign _ d lhs e => d.range.toList ++ lhs.exprs ++ [e]
  | .forallCall _ d _ receiver args => d.range.toList ++ receiver.toList ++ args
  | .forallProof _ d ensures _ => d.range.toList ++ ensures.map (·.expr)
  | .assert _ e _ | .assume _ e => [e]
  | .ret _ es | .yield _ es => es.getD []

/-- All expressions in a statement, contracts included, with their subexpressions. -/
def exprs (s : Stmt) : List Expr :=
  s.substmts.flatMap fun t => t.ownExprs.flatMap Expr.subexprs

/-- Whether a statement yields somewhere inside. -/
def containsYield (s : Stmt) : Bool :=
  s.substmts.any fun
    | .yield .. => true
    | _ => false

/-- The local variables a statement itself declares or assigns. A calculation, a forall and a
return assign none. -/
def ownTargets : Stmt → List Binder
  | .varDecl _ x t _ => [(x, t)]
  | .assign _ lhss _ | .call _ _ _ _ lhss => lhss.filterMap fun
    | .var _ x t => some (x, t)
    | _ => none
  | _ => []

/-- The local variables declared or assigned inside a statement, each once with the type of its
first occurrence. -/
def assignedLocals (s : Stmt) : List Binder :=
  (s.substmts.flatMap ownTargets).foldl
    (fun found b => if found.any (·.1 == b.1) then found else found ++ [b]) []

/-- The members a statement calls, one entry for each call in a statement or expression. -/
def callees (s : Stmt) : List Path :=
  s.substmts.filterMap (fun
    | .call _ m .. | .forallCall _ _ m .. => some m
    | _ => none)
  ++ s.exprs.filterMap fun
    | .call _ f .. => some f
    | _ => none

end Stmt

end ContractLowering.Source
