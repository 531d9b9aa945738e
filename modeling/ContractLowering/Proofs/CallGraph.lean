import ContractLowering.CallGraph
import ContractLowering.Proofs.Graph.Components

/-!
# What the call graph answers

The components of the call graph answer by chains of calls (`isRecursive_ofCalls`,
`reaches_of_inSameComponent`), so a member that is called from inside its own component is recursive
(`isRecursive_of_call`).
-/

namespace ContractLowering.CallGraph

open Source

variable {members : List Path} {edges : List CallEdge} {p q : Path}

/-- There is a call from one member to another. -/
abbrev Calls (edges : List CallEdge) (p q : Path) : Prop := (p, q) ∈ edges

theorem linked_insertions (members : List Path) (edges : List CallEdge) :
    Insertion.Linked (insertions members edges) = Calls edges := by
  funext p q
  simp [Insertion.Linked, insertions]

/-- A member is recursive when a chain of calls leads from it to itself. -/
theorem isRecursive_ofCalls :
    (ofCalls members edges).isRecursive p = true ↔ Relation.TransGen (Calls edges) p p := by
  rw [← linked_insertions members edges]
  exact Graph.isInCycle_ofInsertions

/-- Members in one component are equal or lead to each other by chains of calls. -/
theorem reaches_of_inSameComponent (h : (ofCalls members edges).inSameComponent p q = true) :
    Relation.ReflTransGen (Calls edges) q p := by
  rw [← linked_insertions members edges]
  rcases Graph.inSame_ofInsertions.1 h with rfl | ⟨-, -, hback⟩
  · exact .refl
  · exact hback

/-- A member that is called from inside its component is recursive. -/
theorem isRecursive_of_call (hcall : (p, q) ∈ edges)
    (hsame : (ofCalls members edges).inSameComponent p q = true) :
    (ofCalls members edges).isRecursive q = true :=
  isRecursive_ofCalls.2 (.tail' (reaches_of_inSameComponent hsame) hcall)

end ContractLowering.CallGraph
