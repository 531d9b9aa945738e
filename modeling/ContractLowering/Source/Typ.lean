import ContractLowering.Message
import ContractLowering.Text.Quoted

/-!
# Types of the source language

A declaration is known by its `Path`: the module and the names of the enclosing class and member.
Reference types are possibly null. `Typ.subst` replaces the type parameters of a generic
declaration by arguments.
-/

namespace ContractLowering.Source

/-- The identity of a declaration. -/
structure Path where
  module : String
  segments : List String
deriving DecidableEq, Inhabited

/-- The path of a member of the declaration. -/
def Path.member (p : Path) (name : String) : Path := { p with segments := p.segments ++ [name] }

/-- How messages about the input show a path. -/
def Path.describe (p : Path) : String :=
  "PathX \x7b module: " ++ Text.quoted p.module ++ ", segments: ["
    ++ ", ".intercalate (p.segments.map Text.quoted) ++ "] \x7d"

/-- The identity of a field. -/
structure FieldId where
  owner : Path
  name : String
deriving DecidableEq, Inhabited

/-- Types. `nat` is the integers from zero, `object` a reference of unknown class. -/
inductive Typ where
  | bool
  | int
  | nat
  | object
  | cls (path : Path) (args : List Typ)
  | datatype (path : Path) (args : List Typ)
  | array (elem : Typ)
  | param (x : String)
  | set (elem : Typ)
  | multiset (elem : Typ)
  | seq (elem : Typ)
  | map (key value : Typ)
deriving Inhabited

/-- A variable with its type. -/
abbrev Binder := String × Typ

namespace Typ

/-- Whether values of the type are integers. -/
def isInt : Typ → Bool
  | .int | .nat => true
  | _ => false

/-- The type of an instance of a class or iterator, at its own type parameters. -/
def self (path : Path) (params : List String) : Typ := .cls path (params.map .param)

mutual

/-- Replaces type parameters by the types a lookup gives for them. -/
def replace (lookup : String → Option Typ) : Typ → Typ
  | .bool => .bool
  | .int => .int
  | .nat => .nat
  | .object => .object
  | .cls path args => .cls path (replaceAll lookup args)
  | .datatype path args => .datatype path (replaceAll lookup args)
  | .array t => .array (t.replace lookup)
  | .param x => (lookup x).getD (.param x)
  | .set t => .set (t.replace lookup)
  | .multiset t => .multiset (t.replace lookup)
  | .seq t => .seq (t.replace lookup)
  | .map k v => .map (k.replace lookup) (v.replace lookup)

/-- Replaces type parameters in every type of a list. -/
def replaceAll (lookup : String → Option Typ) : List Typ → List Typ
  | [] => []
  | t :: ts => t.replace lookup :: replaceAll lookup ts

end

/-- Replaces the type parameters of a declaration by arguments. Nothing is replaced when their
numbers differ. -/
def subst (params : List String) (args : List Typ) (t : Typ) : Typ :=
  if params.length = args.length then t.replace (fun x => (params.zip args).lookup x) else t

mutual

/-- How messages about the input show a type. -/
def describe : Typ → String
  | .bool => "Bool"
  | .int => "Int"
  | .nat => "Nat"
  | .object => "Object"
  | .cls path args =>
    "Class(" ++ path.describe ++ ", [" ++ ", ".intercalate (describeAll args) ++ "])"
  | .datatype path args =>
    "Datatype(" ++ path.describe ++ ", [" ++ ", ".intercalate (describeAll args) ++ "])"
  | .array t => "Array(" ++ t.describe ++ ")"
  | .param x => "TypParam(" ++ Text.quoted x ++ ")"
  | .set t => "Set(" ++ t.describe ++ ")"
  | .multiset t => "MultiSet(" ++ t.describe ++ ")"
  | .seq t => "Seq(" ++ t.describe ++ ")"
  | .map k v => "Map(" ++ k.describe ++ ", " ++ v.describe ++ ")"

/-- How messages show several types. -/
def describeAll : List Typ → List String
  | [] => []
  | t :: ts => t.describe :: describeAll ts

end

end Typ

end ContractLowering.Source
