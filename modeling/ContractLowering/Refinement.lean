import ContractLowering.Source.Decl

/-!
# Obligations of refined members

An obligation that a member inherits unchanged from an already verified one is assumed, unless
it was edited or the member is verified again.
-/

namespace ContractLowering.Source.Refinement

/-- Whether a node was edited in the member. -/
def isLocallyChanged (r : Refinement) (id : Nat) : Bool := r.locallyChanged.contains id

/-- Whether an obligation is checked: it is unless it was inherited, unchanged, and nothing asks
for another look. -/
def staysCheck (inherited changed reverify : Bool) : Bool := !inherited || changed || reverify

/-- Whether the obligation at a place of the member is checked. -/
def keepsCheck (r : Refinement) (reverifyAll inherited : Bool) (span : Span) : Bool :=
  staysCheck inherited (r.isLocallyChanged span.id) (r.needsReverify || reverifyAll)

end ContractLowering.Source.Refinement
