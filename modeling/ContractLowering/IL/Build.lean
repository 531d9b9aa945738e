import ContractLowering.IL.Expr

/-!
# Building expressions

The constructors here fold the Boolean constants away: a conjunction drops `true` and collapses
on `false`, nested conjunctions are flattened by one level, double negation disappears, and a
binder without variables is its body. Everything else is built as it stands.
-/

namespace ContractLowering.IL.Expr

/-- The constant `true`. -/
def tt : Expr := .bool true

/-- The constant `false`. -/
def ff : Expr := .bool false

/-- The numeral of a natural number. -/
def nat (n : Nat) : Expr := .num (toString n)

/-- Whether an expression is the constant `true`. -/
def isTrue : Expr → Bool
  | .bool true => true
  | _ => false

/-- Whether an expression is the constant `false`. -/
def isFalse : Expr → Bool
  | .bool false => true
  | _ => false

/-- Negation; a constant is flipped and a double negation cancelled. -/
def neg : Expr → Expr
  | .bool b => .bool (!b)
  | .not e => e
  | e => .not e

/-- What an operand contributes to a conjunction: nothing if it is `true`, its own operands if it
is a conjunction, else itself. -/
def conjOperands : Expr → List Expr
  | .bool true => []
  | .multi .and es => es
  | e => [e]

/-- What an operand contributes to a disjunction: nothing if it is `false`, its own operands if it
is a disjunction, else itself. -/
def disjOperands : Expr → List Expr
  | .bool false => []
  | .multi .or es => es
  | e => [e]

/-- Conjunction. A `false` operand decides it, and a single remaining operand stands alone. -/
def conj (es : List Expr) : Expr :=
  if es.any isFalse then ff
  else match es.flatMap conjOperands with
    | [] => tt
    | [e] => e
    | operands => .multi .and operands

/-- Disjunction. A `true` operand decides it, and a single remaining operand stands alone. -/
def disj (es : List Expr) : Expr :=
  if es.any isTrue then tt
  else match es.flatMap disjOperands with
    | [] => ff
    | [e] => e
    | operands => .multi .or operands

/-- Implication; a constant on either side folds it. -/
def imp (a b : Expr) : Expr :=
  if a.isTrue || b.isTrue then b
  else if a.isFalse then tt
  else if b.isFalse then a.neg
  else .binary .implies a b

/-- Conditional; a constant condition selects its branch. -/
def cond (c a b : Expr) : Expr :=
  if c.isTrue then a else if c.isFalse then b else .ite c a b

/-- Equality. -/
def eq (a b : Expr) : Expr := .binary .eq a b

/-- Disequality. -/
def ne (a b : Expr) : Expr := (eq a b).neg

/-- At most. -/
def le (a b : Expr) : Expr := .binary .le a b

/-- Less than. -/
def lt (a b : Expr) : Expr := .binary .lt a b

/-- Sum of two terms. -/
def add (a b : Expr) : Expr := .multi .add [a, b]

/-- Difference of two terms. -/
def sub (a b : Expr) : Expr := .multi .sub [a, b]

/-- Parallel let; without bindings it is its body. -/
def lets (bindings : List (String × Expr)) (body : Expr) : Expr :=
  if bindings.isEmpty then body else .letIn bindings body

/-- Quantification; without binders it is its body. -/
def quantify (q : Quantifier) (binders : List Binder) (triggers : List Trigger) (body : Expr) :
    Expr :=
  if binders.isEmpty then body else .quant q binders triggers body

/-- Universal quantification. -/
def all (binders : List Binder) (triggers : List Trigger) (body : Expr) : Expr :=
  quantify .all binders triggers body

/-- Existential quantification. -/
def ex (binders : List Binder) (triggers : List Trigger) (body : Expr) : Expr :=
  quantify .ex binders triggers body

/-- The function applied and its arguments, looking through negations. -/
def head? : Expr → Option (String × List Expr)
  | .app f args => some (f, args)
  | .not e => e.head?
  | _ => none

mutual

/-- The conjuncts of an expression, nested conjunctions flattened at every depth. -/
def conjuncts : Expr → List Expr
  | .multi .and es => conjunctsList es
  | e => [e]

/-- The conjuncts of every expression of a list, in order. -/
def conjunctsList : List Expr → List Expr
  | [] => []
  | e :: es => e.conjuncts ++ conjunctsList es

end

end ContractLowering.IL.Expr
