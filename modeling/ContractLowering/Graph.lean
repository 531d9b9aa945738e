/-!
# Directed graphs and their components

A graph is built by adding nodes and edges, and then taken apart into its strongly connected
components in one depth-first search (Tarjan's algorithm). The search numbers the nodes in the
order it reaches them and keeps those without a component on a stack. The lowlink of a node is a
number of a node on the stack that it reaches; a node whose lowlink is still its own number when
its edges have been followed is the first of its component, and the component is what then lies on
the stack down to it.
-/

namespace ContractLowering

/-- A step of building a graph. -/
inductive Insertion (α : Type) where
  | node (a : α)
  | edge (a b : α)
deriving DecidableEq, Repr

/-- A directed graph: its nodes in the order they were added, and the targets of the edges of each
node. -/
structure Graph (α : Type) where
  nodes : List α
  targets : α → List α
  targets_mem : ∀ a, ∀ b ∈ targets a, b ∈ nodes

namespace Graph

variable {α β : Type} [DecidableEq α]

/-- A map changed at one node. -/
def put (f : α → β) (a : α) (b : β) : α → β := fun x => if x = a then b else f x

@[simp] theorem put_self (f : α → β) (a : α) (b : β) : put f a b a = b := if_pos rfl

theorem put_of_ne {a x : α} (f : α → β) (b : β) (h : x ≠ a) : put f a b x = f x := if_neg h

/-! ## Building -/

/-- The graph without nodes. -/
def empty : Graph α := ⟨[], fun _ => [], fun _ _ h => absurd h List.not_mem_nil⟩

instance : Inhabited (Graph α) := ⟨empty⟩

/-- Adds a node, unless it is there. -/
def addNode (g : Graph α) (a : α) : Graph α :=
  if a ∈ g.nodes then g
  else ⟨g.nodes ++ [a], g.targets, fun x b h => List.mem_append_left _ (g.targets_mem x b h)⟩

theorem nodes_addNode (g : Graph α) (a : α) : a ∈ (g.addNode a).nodes := by
  unfold addNode
  split
  · assumption
  · simp

/-- Adds the ends of an edge, and the edge unless it is there. -/
def addEdge (g : Graph α) (a b : α) : Graph α :=
  let h := (g.addNode a).addNode b
  if b ∈ h.targets a then h
  else ⟨h.nodes, put h.targets a (h.targets a ++ [b]), fun x c hc => by
    unfold put at hc
    split at hc
    · rcases List.mem_append.1 hc with hc | hc
      · exact h.targets_mem _ c hc
      · obtain rfl := List.mem_singleton.1 hc
        exact nodes_addNode _ _
    · exact h.targets_mem _ c hc⟩

/-- Carries out one step of building. -/
def insert (g : Graph α) : Insertion α → Graph α
  | .node a => g.addNode a
  | .edge a b => g.addEdge a b

/-- The graph built by some steps. -/
def ofInsertions (steps : List (Insertion α)) : Graph α := steps.foldl insert empty

/-! ## Searching -/

/-- How far a search has come: the number and the lowlink of the nodes it has reached, the stack
with a flag for the nodes on it, and the components that are complete, numbered in the order they
are found. -/
structure Search (α : Type) where
  index : α → Option Nat := fun _ => none
  lowlink : α → Nat := fun _ => 0
  onStack : α → Bool := fun _ => false
  stack : List α := []
  next : Nat := 0
  members : List (List α) := []
  componentOf : α → Option Nat := fun _ => none

namespace Search

/-- Gives a node the next number and puts it on the stack. -/
def visit (s : Search α) (v : α) : Search α :=
  { s with
    index := put s.index v (some s.next)
    lowlink := put s.lowlink v s.next
    onStack := put s.onStack v true
    stack := v :: s.stack
    next := s.next + 1 }

/-- Lowers the lowlink of a node to a number, if it is higher. -/
def lower (s : Search α) (v : α) (n : Nat) : Search α :=
  { s with lowlink := put s.lowlink v (min (s.lowlink v) n) }

/-- What lies on a stack down to a node, with this node, and what lies below it. -/
def popTo (v : α) : List α → List α × List α
  | [] => ([], [])
  | w :: stack => if w = v then ([w], stack) else (w :: (popTo v stack).1, (popTo v stack).2)

/-- Takes a component off the stack, down to its first node. -/
def close (s : Search α) (v : α) : Search α :=
  let popped := popTo v s.stack
  { s with
    onStack := fun a => s.onStack a && a ∉ popped.1
    stack := popped.2
    members := s.members ++ [popped.1]
    componentOf := fun a => if a ∈ popped.1 then some s.members.length else s.componentOf a }

/-- Ends the visit of a node. -/
def finish (s : Search α) (v : α) : Search α :=
  if s.index v = some (s.lowlink v) then s.close v else s

/-- Follows an edge from a node, given how a node is searched that has not been reached. -/
def follow (connect : Search α → α → Search α) (v : α) (s : Search α) (w : α) : Search α :=
  match s.index w with
  | none =>
    let s := connect s w
    s.lower v (s.lowlink w)
  | some i => if s.onStack w then s.lower v i else s

end Search

/-- Searches from a node that has not been reached. The number bounds the depth; the number of nodes
is always enough. -/
def connect (g : Graph α) : Nat → Search α → α → Search α
  | 0, s, _ => s
  | depth + 1, s, v =>
    ((g.targets v).foldl (Search.follow (g.connect depth) v) (s.visit v)).finish v

/-- Searches from a node, unless it has been reached. -/
def searchFrom (g : Graph α) (s : Search α) (v : α) : Search α :=
  if (s.index v).isNone then g.connect g.nodes.length s v else s

/-- Searches from one node after the other. -/
def search (g : Graph α) : Search α := g.nodes.foldl g.searchFrom {}

/-- A graph with its components: the nodes of each, and the component of each node. -/
structure Components (α : Type) where
  graph : Graph α
  members : List (List α) := []
  componentOf : α → Option Nat := fun _ => none

instance : Inhabited (Components α) := ⟨{ graph := default }⟩

/-- The components of a graph. -/
def components (g : Graph α) : Components α :=
  let s := g.search
  ⟨g, s.members, s.componentOf⟩

/-! ## Answers -/

namespace Components

/-- Whether two nodes are the same or in one component. A node that is not in the graph is in a
component of its own. -/
def inSame (c : Components α) (a b : α) : Bool :=
  a == b || match c.componentOf a, c.componentOf b with
    | some i, some j => i == j
    | _, _ => false

@[simp] theorem inSame_self (c : Components α) (a : α) : c.inSame a a = true := by
  simp [inSame]

/-- Whether there is an edge from a node to itself. -/
def hasSelfEdge (c : Components α) (a : α) : Bool := a ∈ c.graph.targets a

/-- The number of nodes in the component of a node. -/
def size (c : Components α) (a : α) : Nat :=
  match c.componentOf a with
  | some i => (c.members[i]?.getD []).length
  | none => 1

/-- Whether a node is on a cycle. -/
def isInCycle (c : Components α) (a : α) : Bool := c.hasSelfEdge a || decide (1 < c.size a)

end Components

end Graph

end ContractLowering
