import ContractLowering.Source.Typ

/-!
# Expressions of the source language

Expressions come resolved and typed: each carries its place and its type, and every call, field
and constructor names its declaration. Operators are overloaded by the types of their operands.
-/

namespace ContractLowering.Source

/-- The place and the type of an expression. -/
structure Info where
  span : Span
  typ : Typ
deriving Inhabited

/-- Operators of one operand. `card` is the size of a collection. -/
inductive UnOp where
  | not
  | neg
  | card
deriving DecidableEq, Inhabited

/-- Operators of two operands. -/
inductive BinOp where
  | and
  | or
  | implies
  | iff
  | eq
  | ne
  | lt
  | le
  | gt
  | ge
  | add
  | sub
  | mul
  | div
  | mod
  | mem
  | notMem
  | disjoint
deriving DecidableEq, Inhabited

/-- The two quantifiers. -/
inductive Quantifier where
  | all
  | ex
deriving DecidableEq, Inhabited

/-- The collections that are written by listing their elements. -/
inductive Collection where
  | set
  | multiset
  | seq
deriving DecidableEq, Inhabited

/-- What is said about induction: let the heuristic choose, none, or on these variables. -/
inductive Induction where
  | default
  | off
  | vars (xs : List String)
deriving DecidableEq, Inhabited

/-- The pattern of a match case: a constructor with a variable for each of its fields. -/
structure Pattern where
  span : Span
  ctor : String
  binders : List Binder
deriving Inhabited

/-- Expressions. The values of a let do not see its binders, and a set comprehension without a
term collects its single bound variable. -/
inductive Expr where
  | bool (info : Info) (b : Bool)
  | int (info : Info) (n : Int)
  | null (info : Info)
  | var (info : Info) (x : String)
  | this (info : Info)
  | field (info : Info) (e : Expr) (f : FieldId)
  | index (info : Info) (e i : Expr)
  | slice (info : Info) (e : Expr) (lo hi : Option Expr)
  | update (info : Info) (e i v : Expr)
  | arrayLength (info : Info) (e : Expr)
  | display (info : Info) (kind : Collection) (es : List Expr)
  | mapDisplay (info : Info) (entries : List (Expr × Expr))
  | ctor (info : Info) (datatype : Path) (ctor : String) (args : List Expr)
  | destruct (info : Info) (e : Expr) (datatype : Path) (ctor field : String)
  | isCtor (info : Info) (e : Expr) (datatype : Path) (ctor : String)
  | old (info : Info) (e : Expr)
  | fresh (info : Info) (e : Expr)
  | unary (info : Info) (op : UnOp) (e : Expr)
  | binary (info : Info) (op : BinOp) (a b : Expr)
  | quant (info : Info) (q : Quantifier) (binders : List Binder) (range : Option Expr)
      (body : Expr) (triggers : List (List Expr)) (induction : Induction)
  | setComp (info : Info) (binders : List Binder) (range : Expr) (term : Option Expr)
  | mapComp (info : Info) (binder : Binder) (range term : Expr)
  | letIn (info : Info) (bindings : List (String × Expr)) (body : Expr)
  | ite (info : Info) (c a b : Expr)
  | cases (info : Info) (e : Expr) (arms : List (Pattern × Expr))
  | call (info : Info) (f : Path) (receiver : Option Expr) (args : List Expr)
deriving Inhabited

namespace Expr

/-- The place and type of an expression. -/
def info : Expr → Info
  | .bool i _ | .int i _ | .null i | .var i _ | .this i | .field i _ _ | .index i _ _
  | .slice i _ _ _ | .update i _ _ _ | .arrayLength i _ | .display i _ _ | .mapDisplay i _
  | .ctor i _ _ _ | .destruct i _ _ _ _ | .isCtor i _ _ _ | .old i _ | .fresh i _ | .unary i _ _
  | .binary i _ _ _ | .quant i _ _ _ _ _ _ | .setComp i _ _ _ | .mapComp i _ _ _ | .letIn i _ _
  | .ite i _ _ _ | .cases i _ _ | .call i _ _ _ => i

/-- The place of an expression. -/
def span (e : Expr) : Span := e.info.span

/-- The type of an expression. -/
def typ (e : Expr) : Typ := e.info.typ

/-- A Boolean constant. -/
def mkBool (span : Span) (b : Bool) : Expr := .bool ⟨span, .bool⟩ b

/-- An integer constant. -/
def mkInt (span : Span) (n : Int) : Expr := .int ⟨span, .int⟩ n

/-- A variable. -/
def mkVar (span : Span) (x : String) (t : Typ) : Expr := .var ⟨span, t⟩ x

/-- The receiver. -/
def mkThis (span : Span) (t : Typ) : Expr := .this ⟨span, t⟩

/-- The null reference. -/
def mkNull (span : Span) : Expr := .null ⟨span, .object⟩

/-- A Boolean expression with an operator of two operands. -/
def mkRel (span : Span) (op : BinOp) (a b : Expr) : Expr := .binary ⟨span, .bool⟩ op a b

/-- The value of an expression in the old state. -/
def mkOld (span : Span) (e : Expr) : Expr := .old ⟨span, e.typ⟩ e

end Expr

end ContractLowering.Source
