import ContractLowering.Naming

/-!
# Broken promises about the input

Programs come resolved and typed. Where one is not, the lowering stops with a `Broken`, which
says what was promised and is not there.
-/

namespace ContractLowering

open Source

/-- What is wrong with an input that should have been resolved and typed. -/
inductive Broken where
  | unknownFunction (p : Path)
  | unknownMethod (p : Path)
  | unknownClass (p : Path)
  | unknownDatatype (p : Path)
  | unknownField (f : FieldId)
  | missingCtor (c : String)
  | missingCtorField (f c : String)
  | notACollection (t : Typ)
  | orderingOn (t : Typ)
  | arithmeticOnSequences
  | membershipIn (t : Typ)
  | indexingInto (t : Typ)
  | updateOf (t : Typ)
  | mapDisplayOf (t : Typ)
  | cardinalityOf (t : Typ)
  | mapComprehensionOf (t : Typ)
  | setComprehensionWithoutTerm
  | matchOn (t : Typ)
  | matchWithoutCases
  | arrayAssignmentTo (t : Typ)
  | noOpenScope
  | noScopeForInsertion
deriving Inhabited

/-- What is said after the words "internal error". -/
def Broken.note : Broken → String
  | .unknownFunction p => "unknown function " ++ Naming.path p
  | .unknownMethod p => "unknown method " ++ Naming.path p
  | .unknownClass p => "unknown class " ++ Naming.path p
  | .unknownDatatype p => "unknown datatype " ++ Naming.path p
  | .unknownField f => "unknown field " ++ Naming.path f.owner ++ "." ++ f.name
  | .missingCtor c => "missing constructor " ++ c
  | .missingCtorField f c => "missing field " ++ f ++ " of constructor " ++ c
  | .notACollection t => "expected a collection type, found " ++ t.describe
  | .orderingOn t => "ordering on " ++ t.describe
  | .arithmeticOnSequences => "arithmetic on sequences"
  | .membershipIn t => "membership in " ++ t.describe
  | .indexingInto t => "indexing into " ++ t.describe
  | .updateOf t => "update of " ++ t.describe
  | .mapDisplayOf t => "map display of type " ++ t.describe
  | .cardinalityOf t => "cardinality of " ++ t.describe
  | .mapComprehensionOf t => "map comprehension of type " ++ t.describe
  | .setComprehensionWithoutTerm => "set comprehension without a term"
  | .matchOn t => "match on " ++ t.describe
  | .matchWithoutCases => "match expression without cases"
  | .arrayAssignmentTo t => "array assignment to " ++ t.describe
  | .noOpenScope => "popped empty stack from ScopeMap"
  | .noScopeForInsertion => "must push at least one scope in ScopeMap"

/-- The text of a broken promise. -/
def Broken.render (b : Broken) : String := "internal error: " ++ b.note

end ContractLowering
