import ContractLowering.Graph
import ContractLowering.Source.Decl

/-!
# The call graph

The nodes are the members, and an edge leads from a member to every member it calls. Two members
are mutually recursive when they are in one component of this graph, and a member is recursive when
it is on a cycle. The answers depend on the members and calls only, not on their order.
-/

namespace ContractLowering

open Source

/-- A call: from the caller to the callee. -/
abbrev CallEdge := Path × Path

/-- The components of the graph of calls. -/
abbrev CallGraph := Graph.Components Path

namespace CallGraph

/-- How the graph of some members and the calls between them is built. -/
def insertions (members : List Path) (edges : List CallEdge) : List (Insertion Path) :=
  members.map .node ++ edges.map fun e => .edge e.1 e.2

/-- The graph of some members and the calls between them. -/
def ofCalls (members : List Path) (edges : List CallEdge) : CallGraph :=
  (Graph.ofInsertions (insertions members edges)).components

/-- Whether a member calls itself, directly or through others. -/
def isRecursive (g : CallGraph) (p : Path) : Bool := g.isInCycle p

/-- Whether two members are the same or mutually recursive. -/
def inSameComponent (g : CallGraph) (p q : Path) : Bool := g.inSame p q

end CallGraph

/-- The calls of a function: in its contract, its measure and its body. In its ensures clauses the
function stands for its result, which is no call. -/
def Source.Function.callEdges (f : Function) : List CallEdge :=
  let direct := f.requires.map (·.expr) ++ f.reads ++ (f.decreases.map (·.exprs)).getD []
    ++ f.body.toList
  let inEnsures := (f.ensures.flatMap fun s => s.expr.callees).filter (· ≠ f.name)
  (direct.flatMap Expr.callees ++ inEnsures).map (f.name, ·)

/-- The calls of a method: in its contract and its body. -/
def Source.Method.callEdges (m : Method) : List CallEdge :=
  let contract := m.requires.map (·.expr) ++ m.ensures.map (·.expr) ++ m.modifies
  (contract.flatMap Expr.callees ++ (m.body.map Stmt.callees).getD []).map (m.name, ·)

/-- The calls of the body of an iterator. -/
def Source.Iterator.callEdges (i : Iterator) : List CallEdge :=
  ((i.body.map Stmt.callees).getD []).map (i.path, ·)

end ContractLowering
