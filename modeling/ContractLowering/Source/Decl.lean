import ContractLowering.Source.Stmt

/-!
# Declarations and programs of the source language
-/

namespace ContractLowering.Source

/-- How a member relates to the one it refines: whether it is verified again in full, and which
of its nodes were changed. -/
structure Refinement where
  needsReverify : Bool := false
  locallyChanged : List Nat := []
deriving Inhabited

/-- A field of a class. Immutable fields are functions of their object. -/
structure Field where
  id : FieldId
  span : Span
  typ : Typ
  isMutable : Bool
deriving Inhabited

/-- A function or predicate. The name of its result may occur in its ensures clauses. -/
structure Function where
  name : Path
  span : Span
  owner : Option Path
  typParams : List String
  params : List Binder
  result : Binder
  requires : List Spec
  reads : List Expr
  ensures : List Spec
  decreases : Option Decreases
  body : Option Expr
  isHidden : Bool
  refinement : Refinement
deriving Inhabited

/-- A method or lemma. -/
structure Method where
  name : Path
  span : Span
  owner : Option Path
  isLemma : Bool
  typParams : List String
  ins : List Binder
  outs : List Binder
  requires : List Spec
  modifies : List Expr
  ensures : List Spec
  decreases : Option Decreases
  body : Option Stmt
  induction : Induction
  refinement : Refinement
deriving Inhabited

/-- A class with its members. -/
structure Class where
  path : Path
  span : Span
  typParams : List String
  fields : List Field
  functions : List Function
  methods : List Method
deriving Inhabited

/-- A constructor of a datatype. -/
structure Ctor where
  name : String
  span : Span
  fields : List Binder
deriving Inhabited

/-- An algebraic datatype. -/
structure Datatype where
  path : Path
  span : Span
  typParams : List String
  ctors : List Ctor
deriving Inhabited

/-- An iterator: code that yields values again and again. -/
structure Iterator where
  path : Path
  span : Span
  typParams : List String
  ins : List Binder
  yields : List Binder
  requires : List Spec
  ensures : List Spec
  yieldRequires : List Spec
  yieldEnsures : List Spec
  reads : List Expr
  modifies : List Expr
  decreases : Option Decreases
  body : Option Stmt
deriving Inhabited

/-- A declaration of a module. -/
inductive TopDecl where
  | cls (c : Class)
  | datatype (d : Datatype)
  | iterator (i : Iterator)
deriving Inhabited

/-- A module. -/
structure Module where
  name : String
  decls : List TopDecl
deriving Inhabited

/-- A program is its modules, in order. -/
abbrev Program := List Module

end ContractLowering.Source
