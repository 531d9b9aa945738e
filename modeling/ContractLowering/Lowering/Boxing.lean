import ContractLowering.Prelude.Names
import ContractLowering.Source.Typ

/-!
# Sorts and boxes

Every source type has a sort. Values of a type parameter and elements of collections are
represented as boxes, all others natively; which conversion is needed follows from the static
types. Boxing what was just unboxed, and the other way round, gives the inner expression back.
-/

namespace ContractLowering

open IL Source

/-- The sort of the values of a type. -/
def Source.Typ.sort : Typ → Srt
  | .bool => .bool
  | .int | .nat => .int
  | .cls .. | .array _ | .object => Prelude.refSort
  | .datatype .. => Prelude.datatypeSort
  | .param _ => Prelude.boxSort
  | .set _ => Prelude.setSort
  | .multiset _ => Prelude.multisetSort
  | .seq _ => Prelude.seqSort
  | .map .. => Prelude.mapSort

/-- Variables with the sorts of their types. -/
def Source.sortBinders (bs : List Source.Binder) : List IL.Binder := bs.map fun b => (b.1, b.2.sort)

/-- The native sort of the values of a type, or `none` if they are boxed. -/
def Source.Typ.boxSort? : Typ → Option Prelude.BoxSort
  | .bool => some .bool
  | .int | .nat => some .int
  | .cls .. | .array _ | .object => some .ref
  | .datatype .. => some .datatype
  | .set _ => some .set
  | .multiset _ => some .multiset
  | .seq _ => some .seq
  | .map .. => some .map
  | .param _ => none

/-- Whether the values of a type are represented as boxes. -/
def Source.Typ.isBoxed (t : Typ) : Bool := t.boxSort?.isNone

namespace Boxing

/-- An application of a box or unbox function with its sort and argument. -/
inductive Applied where
  | boxed (s : Prelude.BoxSort) (inner : IL.Expr)
  | unboxed (s : Prelude.BoxSort) (inner : IL.Expr)

/-- How an expression applies a box or unbox function, if it does. -/
def applied? : IL.Expr → Option Applied
  | .app f [a] =>
    match Prelude.BoxSort.ofBoxName? f with
    | some s => some (.boxed s a)
    | none => (Prelude.BoxSort.ofUnboxName? f).map (.unboxed · a)
  | _ => none

/-- Boxes a value of a type. A boxed value stays, and an unboxed one of the same sort gives its
box back. -/
def box (t : Typ) (e : IL.Expr) : IL.Expr :=
  match t.boxSort? with
  | none => e
  | some s => match applied? e with
    | some (.unboxed s' inner) => if s' = s then inner else .app s.boxName [e]
    | some (.boxed ..) => e
    | none => .app s.boxName [e]

/-- Unboxes a value of a type. An unboxed value stays, and a boxed one of the same sort gives its
content back. -/
def unbox (t : Typ) (e : IL.Expr) : IL.Expr :=
  match t.boxSort? with
  | none => e
  | some s => match applied? e with
    | some (.boxed s' inner) => if s' = s then inner else .app s.unboxName [e]
    | some (.unboxed ..) => e
    | none => .app s.unboxName [e]

/-- Boxes an expression where its native value meets a boxed type. -/
def boxTo (source target : Typ) (e : IL.Expr) : IL.Expr :=
  if target.isBoxed && !source.isBoxed then box source e else e

/-- Unboxes an expression where its boxed value meets a native type. -/
def unboxTo (source target : Typ) (e : IL.Expr) : IL.Expr :=
  if source.isBoxed && !target.isBoxed then unbox target e else e

/-- Converts an expression between the representations of two compatible types. -/
def convert (source target : Typ) (e : IL.Expr) : IL.Expr :=
  unboxTo source target (boxTo source target e)

/-- The box of a reference. -/
def boxRef (o : IL.Expr) : IL.Expr := .app Prelude.BoxSort.ref.boxName [o]

/-- The reference in a box. -/
def unboxRef (b : IL.Expr) : IL.Expr := .app Prelude.BoxSort.ref.unboxName [b]

/-- The box of a Boolean. -/
def boxBool (b : IL.Expr) : IL.Expr := .app Prelude.BoxSort.bool.boxName [b]

/-- The Boolean in a box. -/
def unboxBool (b : IL.Expr) : IL.Expr := .app Prelude.BoxSort.bool.unboxName [b]

end Boxing

end ContractLowering
