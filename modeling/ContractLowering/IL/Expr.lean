/-!
# Expressions of the intermediate verification language

The target of the lowering is a first-order language with named sorts, applications of declared
functions, quantifiers with triggers, and lambdas whose application states the sort of its
result. Names are plain strings. A numeral keeps its digits, so that reading a text and writing
it again changes nothing.
-/

namespace ContractLowering.IL

/-- The sort of a value. Lambdas have one sort whatever they take and give. -/
inductive Srt where
  | bool
  | int
  | lambda
  | named (x : String)
deriving DecidableEq, Inhabited

/-- Operators that take exactly two operands. -/
inductive BinOp where
  | implies
  | eq
  | le
  | ge
  | lt
  | gt
  | div
  | mod
deriving DecidableEq, Inhabited

/-- Operators that take any number of operands. -/
inductive MultiOp where
  | and
  | or
  | add
  | sub
  | mul
  | distinct
deriving DecidableEq, Inhabited

/-- The two quantifiers. -/
inductive Quantifier where
  | all
  | ex
deriving DecidableEq, Inhabited

/-- A variable with its sort. -/
abbrev Binder := String × Srt

/-- Expressions. `old x` is the value of the global variable `x` on entry to the procedure; the
values of a `letIn` do not see its own binders. -/
inductive Expr where
  | bool (b : Bool)
  | num (digits : String)
  | var (x : String)
  | old (x : String)
  | app (f : String) (args : List Expr)
  | applyLambda (result : Srt) (f : Expr) (args : List Expr)
  | not (e : Expr)
  | binary (op : BinOp) (a b : Expr)
  | multi (op : MultiOp) (es : List Expr)
  | ite (c t e : Expr)
  | letIn (bindings : List (String × Expr)) (body : Expr)
  | quant (q : Quantifier) (binders : List Binder) (triggers : List (List Expr)) (body : Expr)
  | lambda (binders : List Binder) (body : Expr)
deriving Inhabited

/-- A trigger: terms that together mention the variables they instantiate. -/
abbrev Trigger := List Expr

end ContractLowering.IL
