import ContractLowering.Source.Expr

/-!
# Subexpressions

`Expr.subexprs` lists an expression and everything below it, also under binders and in triggers,
each expression before its parts. Questions about occurrences are asked of this list.
-/

namespace ContractLowering.Source

mutual

/-- An expression and all expressions below it, outer ones first. -/
def Expr.subexprs : Expr → List Expr
  | .bool i b => [.bool i b]
  | .int i n => [.int i n]
  | .null i => [.null i]
  | .var i x => [.var i x]
  | .this i => [.this i]
  | .field i e f => .field i e f :: e.subexprs
  | .index i a b => .index i a b :: (a.subexprs ++ b.subexprs)
  | .slice i e lo hi => .slice i e lo hi :: (e.subexprs ++ subexprs? lo ++ subexprs? hi)
  | .update i a b c => .update i a b c :: (a.subexprs ++ b.subexprs ++ c.subexprs)
  | .arrayLength i e => .arrayLength i e :: e.subexprs
  | .display i k es => .display i k es :: subexprsList es
  | .mapDisplay i kvs => .mapDisplay i kvs :: subexprsEntries kvs
  | .ctor i d c es => .ctor i d c es :: subexprsList es
  | .destruct i e d c f => .destruct i e d c f :: e.subexprs
  | .isCtor i e d c => .isCtor i e d c :: e.subexprs
  | .old i e => .old i e :: e.subexprs
  | .fresh i e => .fresh i e :: e.subexprs
  | .unary i op e => .unary i op e :: e.subexprs
  | .binary i op a b => .binary i op a b :: (a.subexprs ++ b.subexprs)
  | .quant i q bs r b ts ind =>
    .quant i q bs r b ts ind :: (subexprs? r ++ b.subexprs ++ subexprsTriggers ts)
  | .setComp i bs r t => .setComp i bs r t :: (r.subexprs ++ subexprs? t)
  | .mapComp i b r t => .mapComp i b r t :: (r.subexprs ++ t.subexprs)
  | .letIn i bs b => .letIn i bs b :: (subexprsBindings bs ++ b.subexprs)
  | .ite i c a b => .ite i c a b :: (c.subexprs ++ a.subexprs ++ b.subexprs)
  | .cases i e arms => .cases i e arms :: (e.subexprs ++ subexprsArms arms)
  | .call i f r es => .call i f r es :: (subexprs? r ++ subexprsList es)

/-- The subexpressions of an optional expression. -/
def Expr.subexprs? : Option Expr → List Expr
  | none => []
  | some e => e.subexprs

/-- The subexpressions of several expressions. -/
def Expr.subexprsList : List Expr → List Expr
  | [] => []
  | e :: es => e.subexprs ++ subexprsList es

/-- The subexpressions of keys and values. -/
def Expr.subexprsEntries : List (Expr × Expr) → List Expr
  | [] => []
  | (k, v) :: kvs => k.subexprs ++ v.subexprs ++ subexprsEntries kvs

/-- The subexpressions of the values of a let. -/
def Expr.subexprsBindings : List (String × Expr) → List Expr
  | [] => []
  | (_, e) :: bs => e.subexprs ++ subexprsBindings bs

/-- The subexpressions of the bodies of match cases. -/
def Expr.subexprsArms : List (Pattern × Expr) → List Expr
  | [] => []
  | (_, e) :: arms => e.subexprs ++ subexprsArms arms

/-- The subexpressions of triggers. -/
def Expr.subexprsTriggers : List (List Expr) → List Expr
  | [] => []
  | t :: ts => subexprsList t ++ subexprsTriggers ts

end

/-- Whether the receiver occurs in an expression. -/
def Expr.mentionsThis (e : Expr) : Bool :=
  e.subexprs.any fun
    | .this _ => true
    | _ => false

/-- The functions an expression calls, one entry for each call. -/
def Expr.callees (e : Expr) : List Path :=
  e.subexprs.filterMap fun
    | .call _ f _ _ => some f
    | _ => none

end ContractLowering.Source
