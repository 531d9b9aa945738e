import ContractLowering.Source.Stmt

/-!
# Termination measures

The measure of a member or loop is its decreases clause, or guessed where none is given: the first
parameter of a well-ordered type, the yield counter of an iterator, or the distance that a loop's
guard compares.
-/

namespace ContractLowering.Source

/-- A component of a measure: an expression, or the counter of yields, which only grows. -/
inductive MeasureExpr where
  | expr (e : Expr)
  | yields (counter : String)
deriving Inhabited

/-- A lexicographic measure. -/
structure Measure where
  exprs : List MeasureExpr
  inferred : Bool
  wildcard : Bool
deriving Inhabited

namespace Measure

/-- The measure of a decreases clause. -/
def explicit (d : Decreases) : Measure := ⟨d.exprs.map .expr, false, d.wildcard⟩

/-- A guessed measure. -/
def guessed (exprs : List MeasureExpr) : Measure := ⟨exprs, true, false⟩

/-- Whether a measure has no component. -/
def isEmpty (m : Measure) : Bool := m.exprs.isEmpty

/-- Whether values of a type are measures by themselves. -/
def isWellOrdered : Typ → Bool
  | .nat | .int | .datatype .. | .seq _ | .set _ | .multiset _ | .map .. => true
  | _ => false

/-- The measure of a function, method or iterator. -/
def ofMember (decreases : Option Decreases) (span : Span) (params : List Binder) : Measure :=
  match decreases with
  | some d => explicit d
  | none => guessed ((params.find? fun b => isWellOrdered b.2).toList.map fun b =>
      .expr (.mkVar span b.1 b.2))

/-- The distance that a comparison of integers bounds: `b - a` for `a < b`, one more for `a ≤ b`,
and whichever difference is positive for `a ≠ b`. -/
def ofGuard? (guard : Expr) : Option Expr :=
  let span := guard.span
  let diff := fun (a b : Expr) => Expr.binary ⟨span, .int⟩ .sub a b
  let oneMore := fun (e : Expr) => Expr.binary ⟨span, .int⟩ .add e (.mkInt span 1)
  match guard with
  | .binary _ op a b =>
    if a.typ.isInt then
      match op with
      | .lt => some (diff b a)
      | .le => some (oneMore (diff b a))
      | .gt => some (diff a b)
      | .ge => some (oneMore (diff a b))
      | .ne => some (.ite ⟨span, .int⟩ (.mkRel span .lt a b) (diff b a) (diff a b))
      | _ => none
    else none
  | _ => none

/-- The measure of a loop. One that yields is measured by the yield counter. -/
def ofLoop (decreases : Option Decreases) (guard : Option Expr) (yieldCount : Option String) :
    Measure :=
  match decreases, yieldCount with
  | some d, _ => explicit d
  | none, some y => guessed [.yields y]
  | none, none => guessed ((guard.bind ofGuard?).toList.map .expr)

end Measure

end ContractLowering.Source
