import ContractLowering.Source.Expr

/-!
# Free variables

The variables that occur free in an expression, triggers included, one entry for each
occurrence. The receiver is not a variable.
-/

namespace ContractLowering.Source

/-- The names of the list that no binder binds. -/
def without (bound xs : List String) : List String := xs.filter fun x => !bound.contains x

mutual

/-- The free occurrences of variables. -/
def Expr.freeVars : Expr → List String
  | .bool _ _ | .int _ _ | .null _ | .this _ => []
  | .var _ x => [x]
  | .field _ e _ | .arrayLength _ e | .destruct _ e _ _ _ | .isCtor _ e _ _ | .old _ e
  | .fresh _ e | .unary _ _ e => e.freeVars
  | .index _ a b | .binary _ _ a b => a.freeVars ++ b.freeVars
  | .slice _ e lo hi => e.freeVars ++ freeVars? lo ++ freeVars? hi
  | .update _ a b c | .ite _ a b c => a.freeVars ++ b.freeVars ++ c.freeVars
  | .display _ _ es | .ctor _ _ _ es => freeVarsList es
  | .mapDisplay _ kvs => freeVarsEntries kvs
  | .quant _ _ bs r b ts _ =>
    without (bs.map (·.1)) (freeVars? r ++ b.freeVars ++ freeVarsTriggers ts)
  | .setComp _ bs r t => without (bs.map (·.1)) (r.freeVars ++ freeVars? t)
  | .mapComp _ b r t => without [b.1] (r.freeVars ++ t.freeVars)
  | .letIn _ bs b => freeVarsBindings bs ++ without (bs.map (·.1)) b.freeVars
  | .cases _ e arms => e.freeVars ++ freeVarsArms arms
  | .call _ _ r es => freeVars? r ++ freeVarsList es

/-- The free occurrences in an optional expression. -/
def Expr.freeVars? : Option Expr → List String
  | none => []
  | some e => e.freeVars

/-- The free occurrences in several expressions. -/
def Expr.freeVarsList : List Expr → List String
  | [] => []
  | e :: es => e.freeVars ++ freeVarsList es

/-- The free occurrences in keys and values. -/
def Expr.freeVarsEntries : List (Expr × Expr) → List String
  | [] => []
  | (k, v) :: kvs => k.freeVars ++ v.freeVars ++ freeVarsEntries kvs

/-- The free occurrences in the values of a let. -/
def Expr.freeVarsBindings : List (String × Expr) → List String
  | [] => []
  | (_, e) :: bs => e.freeVars ++ freeVarsBindings bs

/-- The free occurrences in match cases. -/
def Expr.freeVarsArms : List (Pattern × Expr) → List String
  | [] => []
  | (p, e) :: arms => without (p.binders.map (·.1)) e.freeVars ++ freeVarsArms arms

/-- The free occurrences in triggers. -/
def Expr.freeVarsTriggers : List (List Expr) → List String
  | [] => []
  | t :: ts => freeVarsList t ++ freeVarsTriggers ts

end

end ContractLowering.Source
