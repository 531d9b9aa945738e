import ContractLowering.Graph
import Mathlib.Data.Finset.Card
import Mathlib.Logic.Relation

/-!
# The search for the components of a graph

`Graph.search` finds the strongly connected components of a graph. The proof follows the stack.
`Search.Inv` is about a search with some active nodes, those of the calls of `connect` that have
not returned: a node lower on the stack leads to the nodes above it, every node on the stack leads
to an active one that is not above it, and no edge leaves the complete components. `connect_spec`
says what one call adds to a search: some nodes on top of the stack, and a lowlink that no edge
from them to an old node of the stack goes below. The bound on the depth is never met, since a call
lowers the number of nodes that have not been reached (`unvisited_lt`).
-/

namespace ContractLowering

variable {α : Type}

/-- The nodes a step of building adds. -/
def Insertion.ends : Insertion α → List α
  | .node a => [a]
  | .edge a b => [a, b]

namespace Graph

variable {g : Graph α} {a b c : α}

/-- There is an edge from one node to another. -/
def Edge (g : Graph α) (a b : α) : Prop := b ∈ g.targets a

/-- A node leads to another in no, one or more steps. -/
abbrev Reaches (g : Graph α) : α → α → Prop := Relation.ReflTransGen g.Edge

/-- Two nodes lead to each other. -/
def Mutual (g : Graph α) (a b : α) : Prop := g.Reaches a b ∧ g.Reaches b a

/-! ## Building -/

section Building

variable [DecidableEq α] {steps : List (Insertion α)}

@[simp] theorem mem_nodes_addNode : b ∈ (g.addNode a).nodes ↔ b ∈ g.nodes ∨ b = a := by
  unfold addNode
  split
  · rename_i ha
    exact ⟨.inl, fun h => h.elim id fun h => h ▸ ha⟩
  · simp

@[simp] theorem edge_addNode {n : α} : (g.addNode n).Edge a b ↔ g.Edge a b := by
  unfold addNode
  split <;> rfl

@[simp] theorem mem_nodes_addEdge :
    c ∈ (g.addEdge a b).nodes ↔ c ∈ g.nodes ∨ c = a ∨ c = b := by
  have h : c ∈ ((g.addNode a).addNode b).nodes ↔ c ∈ g.nodes ∨ c = a ∨ c = b := by
    simp [or_assoc]
  unfold addEdge
  dsimp only
  split <;> exact h

@[simp] theorem edge_addEdge {x y : α} :
    (g.addEdge x y).Edge a b ↔ g.Edge a b ∨ a = x ∧ b = y := by
  have h : ((g.addNode x).addNode y).Edge a b ↔ g.Edge a b := by simp
  unfold addEdge
  dsimp only
  split
  · rename_i hxy
    rw [h]
    refine ⟨.inl, fun hab => hab.elim id ?_⟩
    rintro ⟨rfl, rfl⟩
    exact h.1 hxy
  · rw [← h]
    by_cases ha : a = x
    · subst ha
      simp [Edge]
    · simp [Edge, put_of_ne _ _ ha, ha]

theorem ofInsertions_concat (steps : List (Insertion α)) (step : Insertion α) :
    ofInsertions (steps ++ [step]) = (ofInsertions steps).insert step := by
  simp [ofInsertions]

/-- The nodes of a graph are those its steps add. -/
theorem mem_nodes_ofInsertions :
    a ∈ (ofInsertions steps).nodes ↔ ∃ step ∈ steps, a ∈ step.ends := by
  induction steps using List.reverseRecOn with
  | nil => simp [ofInsertions, empty]
  | append_singleton steps step ih =>
    rw [ofInsertions_concat]
    cases step with
    | node b => simp [insert, Insertion.ends, ih, or_and_right, exists_or]
    | edge b c => simp [insert, Insertion.ends, ih, or_and_right, exists_or]

/-- The edges of a graph are those its steps add. -/
theorem edge_ofInsertions : (ofInsertions steps).Edge a b ↔ .edge a b ∈ steps := by
  induction steps using List.reverseRecOn with
  | nil => simp [ofInsertions, empty, Edge]
  | append_singleton steps step ih =>
    rw [ofInsertions_concat]
    cases step with
    | node c => simp [insert, ih]
    | edge c d => simp [insert, ih]

end Building

/-! ## States of the search -/

namespace Search

variable {s t : Search α} {v w : α} {active : List α}

/-- The search has reached a node. -/
def Visited (s : Search α) (a : α) : Prop := (s.index a).isSome

/-- The component of a node is complete. -/
def Closed (s : Search α) (a : α) : Prop := (s.componentOf a).isSome

/-- The number of a node that has been reached. -/
def number (s : Search α) (a : α) : Nat := (s.index a).getD 0

theorem index_eq (h : s.Visited a) : s.index a = some (s.number a) := by
  obtain ⟨i, hi⟩ := Option.isSome_iff_exists.1 h
  simp [number, hi]

theorem visited_of_index {i : Nat} (h : s.index a = some i) : s.Visited a := by
  simp [Visited, h]

theorem number_of_index {i : Nat} (h : s.index a = some i) : s.number a = i := by
  simp [number, h]

/-- What holds of a search that is still at the active nodes. -/
structure Inv (g : Graph α) (active : List α) (s : Search α) : Prop where
  mem_nodes : ∀ a, s.Visited a → a ∈ g.nodes
  number_lt : ∀ a, s.Visited a → s.number a < s.next
  sorted : s.stack.Pairwise fun a b => s.number b < s.number a
  onStack_iff : ∀ a, s.onStack a = true ↔ a ∈ s.stack
  visited_iff : ∀ a, s.Visited a ↔ a ∈ s.stack ∨ s.Closed a
  not_closed : ∀ a ∈ s.stack, ¬ s.Closed a
  active_mem : ∀ a ∈ active, a ∈ s.stack
  edge_visited : ∀ a b, s.Visited a → a ∉ active → g.Edge a b → s.Visited b
  upward : ∀ a ∈ s.stack, ∀ b ∈ s.stack, s.number a ≤ s.number b → g.Reaches a b
  downward : ∀ b ∈ s.stack, ∃ a ∈ active, s.number a ≤ s.number b ∧ g.Reaches b a
  edge_closed : ∀ a b, s.Closed a → g.Edge a b → s.Closed b
  same : ∀ a b, s.Closed a → s.Closed b → (s.componentOf a = s.componentOf b ↔ g.Mutual a b)
  members : ∀ a i, s.componentOf a = some i ↔ ∃ ms, s.members[i]? = some ms ∧ a ∈ ms
  nodup : ∀ ms ∈ s.members, ms.Nodup

namespace Inv

theorem visited (h : s.Inv g active) (ha : a ∈ s.stack) : s.Visited a :=
  (h.visited_iff a).2 (.inl ha)

/-- A complete component leads to complete components only. -/
theorem reaches_closed (h : s.Inv g active) (ha : s.Closed a) (hab : g.Reaches a b) :
    s.Closed b := by
  induction hab with
  | refl => exact ha
  | tail _ hedge ih => exact h.edge_closed _ _ ih hedge

theorem stack_nodup (h : s.Inv g active) : s.stack.Nodup :=
  h.sorted.imp fun hlt heq => absurd (heq ▸ hlt) (Nat.lt_irrefl _)

end Inv

/-- What a step of a search does not take back: numbers, and the lowlinks of nodes reached
before. -/
structure Extends (s t : Search α) : Prop where
  index : ∀ a, s.Visited a → t.index a = s.index a
  lowlink : ∀ a, s.Visited a → t.lowlink a = s.lowlink a

namespace Extends

theorem refl (s : Search α) : s.Extends s := ⟨fun _ _ => rfl, fun _ _ => rfl⟩

theorem visited (h : s.Extends t) (ha : s.Visited a) : t.Visited a := by
  rw [Visited, h.index a ha]
  exact ha

theorem number (h : s.Extends t) (ha : s.Visited a) : t.number a = s.number a := by
  rw [Search.number, h.index a ha, Search.number]

theorem trans {u : Search α} (h : s.Extends t) (h' : t.Extends u) : s.Extends u where
  index a ha := (h'.index a (h.visited ha)).trans (h.index a ha)
  lowlink a ha := (h'.lowlink a (h.visited ha)).trans (h.lowlink a ha)

end Extends

/-! ## One call -/

/-- What a call at a node has done when it returns. -/
structure Connected (g : Graph α) (active : List α) (v : α) (s t : Search α) : Prop where
  inv : t.Inv g active
  extends_ : s.Extends t
  visited : t.Visited v
  next_le : s.next ≤ t.next
  /-- New nodes lie on top of the stack, and their edges to the old ones lead to the lowlink or
  above. -/
  above : ∃ new, t.stack = new ++ s.stack ∧ (∀ x ∈ new, s.next ≤ t.number x) ∧
    ∀ x ∈ new, ∀ y ∈ s.stack, g.Edge x y → t.lowlink v ≤ s.number y
  /-- A lowlink that matters is the number of an old node on the stack. -/
  low : s.next ≤ t.lowlink v ∨ ∃ y ∈ s.stack, s.number y = t.lowlink v ∧ g.Reaches v y

/-- What a call at a node has done when it has followed some of the edges. -/
structure Following (g : Graph α) (active : List α) (v : α) (s : Search α) (done : List α)
    (t : Search α) : Prop where
  inv : t.Inv g (v :: active)
  extends_ : s.Extends t
  index : t.index v = some s.next
  next_lt : s.next < t.next
  above : ∃ new, t.stack = new ++ v :: s.stack ∧ (∀ x ∈ new, s.next < t.number x) ∧
    ∀ x ∈ new, ∀ y ∈ s.stack, g.Edge x y → t.lowlink v ≤ s.number y
  low : t.lowlink v = s.next ∨ ∃ y ∈ s.stack, s.number y = t.lowlink v ∧ g.Reaches v y
  done_visited : ∀ w ∈ done, t.Visited w
  done_low : ∀ w ∈ done, w ∈ s.stack → t.lowlink v ≤ s.number w

namespace Following

variable {done : List α}

theorem visited (h : Following g active v s done t) : t.Visited v := visited_of_index h.index

theorem mem_of_mem_old (h : Following g active v s done t) (hw : w ∈ s.stack) : w ∈ t.stack := by
  obtain ⟨new, hstack, -⟩ := h.above
  simp [hstack, hw]

/-- A node below the current one on the stack was there before. -/
theorem mem_of_number_lt (h : Following g active v s done t) (hw : w ∈ t.stack)
    (hlt : t.number w < s.next) : w ∈ s.stack := by
  obtain ⟨new, hstack, hnew, -⟩ := h.above
  rw [hstack, List.mem_append, List.mem_cons] at hw
  rcases hw with hw | rfl | hw
  · have := hnew w hw
    omega
  · rw [number_of_index h.index] at hlt
    omega
  · exact hw

theorem lowlink_le (h : Following g active v s done t) (hs : s.Inv g active) :
    t.lowlink v ≤ s.next := by
  rcases h.low with heq | ⟨y, hy, heq, -⟩
  · exact heq.le
  · rw [← heq]
    exact (hs.number_lt y (hs.visited hy)).le

/-- The lowlink stays one that matters when it is lowered to one that accounts for an edge. -/
theorem low_min {n : Nat} (h : Following g active v s done t) (hedge : g.Edge v w)
    (hn : t.lowlink v ≤ n ∨ ∃ y ∈ s.stack, s.number y = n ∧ g.Reaches w y) :
    min (t.lowlink v) n = s.next ∨
      ∃ y ∈ s.stack, s.number y = min (t.lowlink v) n ∧ g.Reaches v y := by
  rcases Nat.le_total (t.lowlink v) n with hle | hle
  · rw [Nat.min_eq_left hle]
    exact h.low
  · rw [Nat.min_eq_right hle]
    rcases hn with hn | ⟨y, hy, heq, hwy⟩
    · rw [Nat.le_antisymm hle hn]
      exact h.low
    · exact .inr ⟨y, hy, heq, .head hedge hwy⟩

/-- An edge to a node of a complete component changes nothing. -/
theorem skip (h : Following g active v s done t) (hw : t.Visited w) (hoff : ¬ t.onStack w = true) :
    Following g active v s (done ++ [w]) t := by
  refine { h with done_visited := ?_, done_low := ?_ }
  · intro x hx
    rcases List.mem_append.1 hx with hx | hx
    · exact h.done_visited x hx
    · exact List.mem_singleton.1 hx ▸ hw
  · intro x hx hmem
    rcases List.mem_append.1 hx with hx | hx
    · exact h.done_low x hx hmem
    · obtain rfl := List.mem_singleton.1 hx
      exact absurd ((h.inv.onStack_iff x).2 (h.mem_of_mem_old hmem)) hoff

end Following

variable [DecidableEq α]

/-! ### Visiting -/

theorem visited_visit : (s.visit v).Visited a ↔ a = v ∨ s.Visited a := by
  by_cases h : a = v
  · simp [Visited, visit, h]
  · simp [Visited, visit, put_of_ne _ _ h, h]

theorem number_visit_self : (s.visit v).number v = s.next := by
  simp [number, visit]

theorem extends_visit (hv : ¬ s.Visited v) : s.Extends (s.visit v) where
  index _ ha := put_of_ne _ _ fun h => hv (h ▸ ha)
  lowlink _ ha := put_of_ne _ _ fun h => hv (h ▸ ha)

/-- A node that every active node leads to becomes active. -/
theorem Inv.visit (h : s.Inv g active) (hmem : v ∈ g.nodes) (hv : ¬ s.Visited v)
    (hreach : ∀ a ∈ active, g.Reaches a v) : (s.visit v).Inv g (v :: active) := by
  have hext : s.Extends (s.visit v) := extends_visit hv
  have hstack : (s.visit v).stack = v :: s.stack := rfl
  have hclosed : ∀ a, (s.visit v).Closed a ↔ s.Closed a := fun _ => Iff.rfl
  have hnumber : ∀ a ∈ s.stack, (s.visit v).number a = s.number a :=
    fun _ ha => hext.number (h.visited ha)
  have hlt : ∀ a ∈ s.stack, s.number a < s.next := fun a ha => h.number_lt a (h.visited ha)
  have htop : ∀ a ∈ s.stack, g.Reaches a v := fun a ha => by
    obtain ⟨b, hb, -, hab⟩ := h.downward a ha
    exact hab.trans (hreach b hb)
  refine
    { mem_nodes := fun a ha => (visited_visit.1 ha).elim (· ▸ hmem) (h.mem_nodes a)
      number_lt := ?_
      sorted := ?_
      onStack_iff := ?_
      visited_iff := ?_
      not_closed := ?_
      active_mem := ?_
      edge_visited := ?_
      upward := ?_
      downward := ?_
      edge_closed := h.edge_closed
      same := h.same
      members := h.members
      nodup := h.nodup }
  · intro a ha
    show _ < s.next + 1
    rcases visited_visit.1 ha with rfl | ha
    · rw [number_visit_self]
      omega
    · rw [hext.number ha]
      exact (h.number_lt a ha).trans (Nat.lt_succ_self _)
  · refine List.pairwise_cons.2 ⟨fun a ha => ?_, h.sorted.imp_of_mem fun ha hb hab => ?_⟩
    · rw [hnumber a ha, number_visit_self]
      exact hlt a ha
    · rwa [hnumber _ ha, hnumber _ hb]
  · intro a
    by_cases ha : a = v
    · subst ha
      simp [Search.visit]
    · simp [Search.visit, put_of_ne _ _ ha, h.onStack_iff, ha]
  · intro a
    rw [visited_visit, hstack, List.mem_cons, or_assoc, h.visited_iff, hclosed]
  · intro a ha hcl
    rcases List.mem_cons.1 ha with rfl | ha
    · exact hv ((h.visited_iff _).2 (.inr hcl))
    · exact h.not_closed a ha hcl
  · intro a ha
    rcases List.mem_cons.1 ha with rfl | ha
    · exact List.mem_cons_self ..
    · exact List.mem_cons_of_mem _ (h.active_mem a ha)
  · intro a b ha hactive hedge
    obtain ⟨hav, hactive⟩ : a ≠ v ∧ a ∉ active := by simpa using hactive
    have ha : s.Visited a := (visited_visit.1 ha).resolve_left hav
    exact hext.visited (h.edge_visited a b ha hactive hedge)
  · intro a ha b hb hab
    rcases List.mem_cons.1 ha, List.mem_cons.1 hb with ⟨rfl | ha', rfl | hb'⟩
    · exact .refl
    · rw [number_visit_self, hnumber b hb'] at hab
      have := hlt b hb'
      omega
    · exact htop a ha'
    · rw [hnumber a ha', hnumber b hb'] at hab
      exact h.upward a ha' b hb' hab
  · intro b hb
    rcases List.mem_cons.1 hb with rfl | hb
    · exact ⟨b, List.mem_cons_self .., Nat.le_refl _, .refl⟩
    · obtain ⟨a, ha, hle, hba⟩ := h.downward b hb
      refine ⟨a, List.mem_cons_of_mem _ ha, ?_, hba⟩
      rwa [hnumber a (h.active_mem a ha), hnumber b hb]

theorem Following.start (h : s.Inv g active) (hmem : v ∈ g.nodes) (hv : ¬ s.Visited v)
    (hreach : ∀ a ∈ active, g.Reaches a v) : Following g active v s [] (s.visit v) where
  inv := h.visit hmem hv hreach
  extends_ := extends_visit hv
  index := by simp [visit]
  next_lt := Nat.lt_succ_self _
  above := ⟨[], rfl, by simp, by simp⟩
  low := .inl (by simp [visit])
  done_visited := by simp
  done_low := by simp

/-! ### Following an edge -/

theorem Inv.lower {n : Nat} (h : s.Inv g active) : (s.lower v n).Inv g active := { h with }

theorem lowlink_lower_self {n : Nat} : (s.lower v n).lowlink v = min (s.lowlink v) n := by
  simp [lower]

theorem Extends.lower {n : Nat} (h : s.Extends t) (hv : ¬ s.Visited v) :
    s.Extends (t.lower v n) where
  index := h.index
  lowlink a ha := by
    have hne : a ≠ v := fun heq => hv (heq ▸ ha)
    exact (put_of_ne _ _ hne).trans (h.lowlink a ha)

namespace Following

variable {done : List α}

/-- An edge to a node on the stack lowers the lowlink to its number. -/
theorem back (h : Following g active v s done t) (hs : s.Inv g active) (hv : ¬ s.Visited v)
    (hedge : g.Edge v w) (hon : w ∈ t.stack) :
    Following g active v s (done ++ [w]) (t.lower v (t.number w)) := by
  have hlow : (t.lower v (t.number w)).lowlink v ≤ t.lowlink v := by
    rw [lowlink_lower_self]
    exact Nat.min_le_left ..
  refine
    { inv := h.inv.lower
      extends_ := h.extends_.lower hv
      index := h.index
      next_lt := h.next_lt
      above := ?_
      low := ?_
      done_visited := ?_
      done_low := ?_ }
  · obtain ⟨new, hstack, hnew, hbelow⟩ := h.above
    exact ⟨new, hstack, hnew, fun x hx y hy hxy => hlow.trans (hbelow x hx y hy hxy)⟩
  · rw [lowlink_lower_self]
    refine h.low_min hedge ?_
    rcases Nat.lt_or_ge (t.number w) s.next with hlt | hge
    · have hw : w ∈ s.stack := h.mem_of_number_lt hon hlt
      exact .inr ⟨w, hw, (h.extends_.number (hs.visited hw)).symm, .refl⟩
    · exact .inl ((h.lowlink_le hs).trans hge)
  · intro x hx
    rcases List.mem_append.1 hx with hx | hx
    · exact h.done_visited x hx
    · obtain rfl := List.mem_singleton.1 hx
      exact h.inv.visited hon
  · intro x hx hmem
    rcases List.mem_append.1 hx with hx | hx
    · exact hlow.trans (h.done_low x hx hmem)
    · obtain rfl := List.mem_singleton.1 hx
      rw [lowlink_lower_self, ← h.extends_.number (hs.visited hmem)]
      exact Nat.min_le_right ..

/-- An edge to a node that has not been reached: the call at this node returns, and the lowlink is
lowered to the one it has found. -/
theorem call {u : Search α} (h : Following g active v s done t) (hs : s.Inv g active)
    (hv : ¬ s.Visited v) (hedge : g.Edge v w) (hw : ¬ t.Visited w)
    (hcall : Connected g (v :: active) w t u) :
    Following g active v s (done ++ [w]) (u.lower v (u.lowlink w)) := by
  have hsame : u.lowlink v = t.lowlink v := hcall.extends_.lowlink v h.visited
  have hlow : (u.lower v (u.lowlink w)).lowlink v = min (t.lowlink v) (u.lowlink w) := by
    rw [lowlink_lower_self, hsame]
  refine
    { inv := hcall.inv.lower
      extends_ := (h.extends_.trans hcall.extends_).lower hv
      index := (hcall.extends_.index v h.visited).trans h.index
      next_lt := h.next_lt.trans_le hcall.next_le
      above := ?_
      low := ?_
      done_visited := ?_
      done_low := ?_ }
  · obtain ⟨new, hstack, hnew, hbelow⟩ := h.above
    obtain ⟨new', hstack', hnew', hbelow'⟩ := hcall.above
    refine ⟨new' ++ new, by simp [lower, hstack', hstack], fun x hx => ?_, fun x hx y hy hxy => ?_⟩
    · rcases List.mem_append.1 hx with hx | hx
      · exact h.next_lt.trans_le (hnew' x hx)
      · have hx' : t.Visited x := h.inv.visited (by simp [hstack, hx])
        exact (hnew x hx).trans_eq (hcall.extends_.number hx').symm
    · rw [hlow]
      rcases List.mem_append.1 hx with hx | hx
      · rw [← h.extends_.number (hs.visited hy)]
        exact (Nat.min_le_right ..).trans (hbelow' x hx y (h.mem_of_mem_old hy) hxy)
      · exact (Nat.min_le_left ..).trans (hbelow x hx y hy hxy)
  · rw [hlow]
    refine h.low_min hedge ?_
    rcases hcall.low with hge | ⟨y, hy, heq, hwy⟩
    · exact .inl ((h.lowlink_le hs).trans (h.next_lt.le.trans hge))
    · rcases Nat.lt_or_ge (t.number y) s.next with hlt | hge
      · have hold : y ∈ s.stack := h.mem_of_number_lt hy hlt
        exact .inr ⟨y, hold, (h.extends_.number (hs.visited hold)).symm.trans heq, hwy⟩
      · exact .inl ((h.lowlink_le hs).trans (hge.trans_eq heq))
  · intro x hx
    rcases List.mem_append.1 hx with hx | hx
    · exact hcall.extends_.visited (h.done_visited x hx)
    · exact List.mem_singleton.1 hx ▸ hcall.visited
  · intro x hx hmem
    rcases List.mem_append.1 hx with hx | hx
    · rw [hlow]
      exact (Nat.min_le_left ..).trans (h.done_low x hx hmem)
    · obtain rfl := List.mem_singleton.1 hx
      exact absurd (h.inv.visited (h.mem_of_mem_old hmem)) hw

end Following

/-! ### Closing a component -/

theorem popTo_append {new old : List α} (hv : v ∉ new) :
    popTo v (new ++ v :: old) = (new ++ [v], old) := by
  induction new with
  | nil => simp [popTo]
  | cons w new ih =>
    obtain ⟨hw, hv⟩ : v ≠ w ∧ v ∉ new := by simpa using hv
    simp [popTo, Ne.symm hw, ih hv]

/-- The component that is closed when a node and its edges lie on top of the stack, lead to each
other and to nothing else that is open. -/
theorem Inv.close {ms old : List α} (h : s.Inv g (v :: active))
    (hpop : popTo v s.stack = (ms, old)) (hstack : s.stack = ms ++ old) (hv : v ∈ ms)
    (hactive : ∀ a ∈ active, a ∈ old) (hlt : ∀ a ∈ ms, ∀ b ∈ old, s.number b < s.number a)
    (hmutual : ∀ a ∈ ms, ∀ b ∈ ms, g.Mutual a b)
    (hedges : ∀ a ∈ ms, ∀ b, g.Edge a b → b ∈ ms ∨ s.Closed b) : (s.close v).Inv g active := by
  have hmem : ∀ a, a ∈ s.stack ↔ a ∈ ms ∨ a ∈ old := by simp [hstack]
  have hstack' : (s.close v).stack = old := by simp [Search.close, hpop]
  have hmembers : (s.close v).members = s.members ++ [ms] := by simp [Search.close, hpop]
  have hcomp : ∀ a, (s.close v).componentOf a =
      if a ∈ ms then some s.members.length else s.componentOf a := by simp [Search.close, hpop]
  have hclosed : ∀ a, (s.close v).Closed a ↔ a ∈ ms ∨ s.Closed a := fun a => by
    rw [Closed, hcomp]
    split
    · simp [*]
    · simp [Closed, *]
  have hopen : ∀ a ∈ ms, ¬ s.Closed a := fun a ha => h.not_closed a ((hmem a).2 (.inl ha))
  have hdisjoint : ∀ a ∈ old, a ∉ ms := fun a ha hms =>
    absurd (hlt a hms a ha) (Nat.lt_irrefl _)
  have hlength : ∀ a i, s.componentOf a = some i → i < s.members.length := fun a i ha => by
    obtain ⟨ms', hms', -⟩ := (h.members a i).1 ha
    exact (List.getElem?_eq_some_iff.1 hms').1
  refine
    { mem_nodes := h.mem_nodes
      number_lt := h.number_lt
      sorted := ?_
      onStack_iff := ?_
      visited_iff := ?_
      not_closed := ?_
      active_mem := ?_
      edge_visited := ?_
      upward := ?_
      downward := ?_
      edge_closed := ?_
      same := ?_
      members := ?_
      nodup := ?_ }
  · rw [hstack']
    exact (List.pairwise_append.1 (hstack ▸ h.sorted)).2.1
  · intro a
    have hon : (s.close v).onStack a = (s.onStack a && decide (a ∉ ms)) := by
      simp [Search.close, hpop]
    rw [hon, Bool.and_eq_true, h.onStack_iff, hmem, decide_eq_true_eq, hstack']
    exact ⟨fun ha => ha.1.resolve_left ha.2, fun ha => ⟨.inr ha, hdisjoint a ha⟩⟩
  · intro a
    show s.Visited a ↔ _
    rw [h.visited_iff, hmem, hstack', hclosed]
    tauto
  · intro a ha
    rw [hstack'] at ha
    rw [hclosed]
    exact not_or.2 ⟨hdisjoint a ha, h.not_closed a ((hmem a).2 (.inr ha))⟩
  · rw [hstack']
    exact hactive
  · intro a b ha hout hedge
    by_cases hav : a = v
    · refine (h.visited_iff b).2 ((hedges v hv b (hav ▸ hedge)).imp (fun hb => ?_) id)
      exact (hmem b).2 (.inl hb)
    · exact h.edge_visited a b ha (by simp [hav, hout]) hedge
  · rw [hstack']
    exact fun a ha b hb => h.upward a ((hmem a).2 (.inr ha)) b ((hmem b).2 (.inr hb))
  · intro b hb
    rw [hstack'] at hb
    obtain ⟨a, ha, hle, hba⟩ := h.downward b ((hmem b).2 (.inr hb))
    refine ⟨a, (List.mem_cons.1 ha).resolve_left fun hav => ?_, hle, hba⟩
    have := hlt v hv b hb
    rw [hav] at hle
    omega
  · intro a b ha hedge
    rw [hclosed] at ha ⊢
    rcases ha with ha | ha
    · exact hedges a ha b hedge
    · exact .inr (h.edge_closed a b ha hedge)
  · -- a node of the new component and one of an old component do not lead to each other
    have hnew : ∀ a ∈ ms, ∀ b, s.Closed b →
        some s.members.length ≠ s.componentOf b ∧ ¬ g.Reaches b a := fun a ha b hb =>
      ⟨fun heq => absurd (hlength b _ heq.symm) (Nat.lt_irrefl _),
        fun hba => hopen a ha (h.reaches_closed hb hba)⟩
    intro a b ha hb
    rw [hclosed] at ha hb
    rw [hcomp, hcomp]
    by_cases hams : a ∈ ms <;> by_cases hbms : b ∈ ms
    · simp [hams, hbms, hmutual a hams b hbms]
    · obtain ⟨hne, hba⟩ := hnew a hams b (hb.resolve_left hbms)
      simp only [hams, hbms, if_true, if_false]
      exact iff_of_false hne fun hab => hba hab.2
    · obtain ⟨hne, hab⟩ := hnew b hbms a (ha.resolve_left hams)
      simp only [hams, hbms, if_true, if_false]
      exact iff_of_false hne.symm fun hab' => hab hab'.1
    · simp only [hams, hbms, if_false]
      exact h.same a b (ha.resolve_left hams) (hb.resolve_left hbms)
  · intro a i
    rw [hcomp, hmembers]
    rcases Nat.lt_trichotomy i s.members.length with hi | rfl | hi
    · rw [List.getElem?_append_left hi]
      split
      · rename_i ha
        refine iff_of_false (fun heq => ?_) fun hex => ?_
        · exact absurd (Option.some.inj heq) hi.ne'
        · exact hopen a ha (by simp [Closed, (h.members a i).2 hex])
      · exact h.members a i
    · simp only [List.getElem?_concat_length, Option.some.injEq, exists_eq_left']
      split
      · simp [*]
      · rename_i ha
        exact iff_of_false (fun heq => absurd (hlength a _ heq) (Nat.lt_irrefl _)) ha
    · have hnone : (s.members ++ [ms])[i]? = none := List.getElem?_eq_none (by simp; omega)
      rw [hnone]
      refine iff_of_false (fun heq => ?_) (by simp)
      split at heq
      · exact absurd (Option.some.inj heq) hi.ne
      · exact absurd (hlength a i heq) hi.asymm
  · intro ms' hms'
    rw [hmembers] at hms'
    rcases List.mem_append.1 hms' with hms' | hms'
    · exact h.nodup ms' hms'
    · rw [List.mem_singleton.1 hms']
      exact (List.nodup_append.1 (hstack ▸ h.stack_nodup)).1

namespace Following

variable (h : Following g active v s (g.targets v) t) (hs : s.Inv g active)
  (hreach : ∀ a ∈ active, g.Reaches a v)

include h

/-- The node is no longer active, and lies on the stack with a lowlink below its number. -/
theorem keep (hs : s.Inv g active) (hroot : t.index v ≠ some (t.lowlink v)) :
    Connected g active v s t := by
  obtain ⟨new, hstack, hnew, hbelow⟩ := h.above
  obtain ⟨z, hz, heq, hvz⟩ := h.low.resolve_left fun heq => hroot (by rw [h.index, heq])
  have hzt : t.number z = t.lowlink v := (h.extends_.number (hs.visited hz)).trans heq
  have hlt : t.lowlink v < t.number v := by
    rw [number_of_index h.index, ← heq]
    exact hs.number_lt z (hs.visited hz)
  refine
    { inv := { h.inv with active_mem := ?_, edge_visited := ?_, downward := ?_ }
      extends_ := h.extends_
      visited := h.visited
      next_le := h.next_lt.le
      above := ⟨new ++ [v], by simp [hstack], ?_, ?_⟩
      low := .inr ⟨z, hz, heq, hvz⟩ }
  · exact fun a ha => h.inv.active_mem a (List.mem_cons_of_mem _ ha)
  · intro a b ha hactive hedge
    by_cases hav : a = v
    · exact h.done_visited b (hav ▸ hedge)
    · exact h.inv.edge_visited a b ha (by simp [hav, hactive]) hedge
  · intro b hb
    obtain ⟨a, ha, hle, hba⟩ := h.inv.downward b hb
    rcases List.mem_cons.1 ha with rfl | ha
    · -- the current node leads below itself, and from there to an active node other than it
      obtain ⟨c, hc, hcz, hzc⟩ := h.inv.downward z (h.mem_of_mem_old hz)
      have hca : c ≠ a := fun hca => by
        rw [hca, hzt] at hcz
        omega
      exact ⟨c, (List.mem_cons.1 hc).resolve_left hca, by omega, hba.trans (hvz.trans hzc)⟩
    · exact ⟨a, ha, hle, hba⟩
  · intro x hx
    rcases List.mem_append.1 hx with hx | hx
    · exact (hnew x hx).le
    · rw [List.mem_singleton.1 hx, number_of_index h.index]
  · intro x hx y hy hxy
    rcases List.mem_append.1 hx with hx | hx
    · exact hbelow x hx y hy hxy
    · exact h.done_low y (List.mem_singleton.1 hx ▸ hxy) hy

/-- The node is the first of its component, which is what lies on the stack down to it. -/
theorem close (hs : s.Inv g active) (hreach : ∀ a ∈ active, g.Reaches a v)
    (hroot : t.index v = some (t.lowlink v)) : Connected g active v s (t.close v) := by
  obtain ⟨new, hstack, hnew, hbelow⟩ := h.above
  have hlow : t.lowlink v = s.next := Option.some.inj (hroot.symm.trans h.index)
  have hnodup : (new ++ v :: s.stack).Nodup := hstack ▸ h.inv.stack_nodup
  have hvnew : v ∉ new := fun hmem =>
    (List.nodup_append.1 hnodup).2.2 v hmem v (List.mem_cons_self ..) rfl
  have hpop : popTo v t.stack = (new ++ [v], s.stack) := hstack ▸ popTo_append hvnew
  -- the component, and how it divides the stack
  set ms := new ++ [v] with hms
  have hmem : ∀ a, a ∈ t.stack ↔ a ∈ ms ∨ a ∈ s.stack := by simp [hstack, hms, or_assoc]
  have hge : ∀ a ∈ ms, s.next ≤ t.number a := fun a ha => by
    rcases List.mem_append.1 ha with ha | ha
    · exact (hnew a ha).le
    · rw [List.mem_singleton.1 ha, number_of_index h.index]
  have hnum : ∀ a ∈ s.stack, t.number a = s.number a :=
    fun a ha => h.extends_.number (hs.visited ha)
  have hlt : ∀ a ∈ s.stack, s.number a < s.next := fun a ha => hs.number_lt a (hs.visited ha)
  have hvms : v ∈ ms := by simp [hms]
  have hdown : ∀ a ∈ ms, g.Reaches v a := fun a ha =>
    h.inv.upward v ((hmem v).2 (.inl hvms)) a ((hmem a).2 (.inl ha))
      ((number_of_index h.index).trans_le (hge a ha))
  have hup : ∀ a ∈ ms, g.Reaches a v := fun a ha => by
    obtain ⟨b, hb, -, hab⟩ := h.inv.downward a ((hmem a).2 (.inl ha))
    rcases List.mem_cons.1 hb with rfl | hb
    · exact hab
    · exact hab.trans (hreach b hb)
  refine
    { inv := h.inv.close hpop (by simp [hstack, hms]) hvms hs.active_mem ?_ ?_ ?_
      extends_ := ⟨h.extends_.index, h.extends_.lowlink⟩
      visited := h.visited
      next_le := h.next_lt.le
      above := ⟨[], by simp [Search.close, hpop], by simp, by simp⟩
      low := .inl hlow.ge }
  · intro a ha b hb
    rw [hnum b hb]
    exact (hlt b hb).trans_le (hge a ha)
  · exact fun a ha b hb => ⟨(hup a ha).trans (hdown b hb), (hup b hb).trans (hdown a ha)⟩
  · intro a ha b hab
    have hvisited : t.Visited b := by
      by_cases hav : a = v
      · exact h.done_visited b (hav ▸ hab)
      · refine h.inv.edge_visited a b (h.inv.visited ((hmem a).2 (.inl ha))) ?_ hab
        have hout : a ∉ active := fun hactive => by
          have := hlt a (hs.active_mem a hactive)
          have := hge a ha
          have := hnum a (hs.active_mem a hactive)
          omega
        simp [hav, hout]
    rw [h.inv.visited_iff, hmem, or_assoc] at hvisited
    refine hvisited.imp id fun hb => hb.resolve_left fun hb => ?_
    -- an edge to an old node would have lowered the lowlink below the number of the first node
    have hle : t.lowlink v ≤ s.number b := by
      rcases List.mem_append.1 ha with ha | ha
      · exact hbelow a ha b hb hab
      · exact h.done_low b (List.mem_singleton.1 ha ▸ hab) hb
    have := hlt b hb
    omega

/-- The end of a call. -/
theorem finish (hs : s.Inv g active) (hreach : ∀ a ∈ active, g.Reaches a v) :
    Connected g active v s (t.finish v) := by
  unfold Search.finish
  split
  · exact h.close hs hreach ‹_›
  · exact h.keep hs ‹_›

omit h

/-- An edge is followed, given what a call at its target does. -/
theorem follow {done : List α} {connect : Search α → α → Search α}
    (h : Following g active v s done t) (hs : s.Inv g active) (hv : ¬ s.Visited v)
    (hedge : g.Edge v w)
    (hcall : ¬ t.Visited w → Connected g (v :: active) w t (connect t w)) :
    Following g active v s (done ++ [w]) (Search.follow connect v t w) := by
  cases hw : t.index w with
  | none =>
    have hnew : ¬ t.Visited w := by simp [Visited, hw]
    simp only [Search.follow, hw]
    exact h.call hs hv hedge hnew (hcall hnew)
  | some i =>
    simp only [Search.follow, hw]
    split
    · rename_i hon
      rw [← number_of_index hw]
      exact h.back hs hv hedge ((h.inv.onStack_iff w).1 hon)
    · exact h.skip (visited_of_index hw) ‹_›

end Following

/-! ### Whole calls -/

/-- The number of nodes that have not been reached. -/
def unvisited (g : Graph α) (s : Search α) : Nat :=
  (g.nodes.toFinset.filter fun a => s.index a = none).card

theorem unvisited_lt (h : s.Extends t) (hmem : v ∈ g.nodes) (hv : ¬ s.Visited v)
    (hv' : t.Visited v) : unvisited g t < unvisited g s := by
  refine Finset.card_lt_card (Finset.ssubset_iff_of_subset ?_ |>.2 ⟨v, ?_, ?_⟩)
  · intro a ha
    rw [Finset.mem_filter] at ha ⊢
    refine ⟨ha.1, by_contra fun hvisited => ?_⟩
    have hvisited : s.Visited a := Option.isSome_iff_ne_none.2 hvisited
    rw [h.index a hvisited] at ha
    simp [Visited, ha.2] at hvisited
  · simpa [Visited, hmem] using hv
  · simp [index_eq hv']

end Search

open Search

variable [DecidableEq α] {s t : Search α} {v : α} {active : List α}

/-- A call at a node that has not been reached, and that every active node leads to. Its depth is
bounded by the number of nodes that have not been reached. -/
theorem connect_spec {depth : Nat} (hs : s.Inv g active) (hmem : v ∈ g.nodes)
    (hv : ¬ s.Visited v) (hreach : ∀ a ∈ active, g.Reaches a v)
    (hdepth : unvisited g s ≤ depth) : Connected g active v s (g.connect depth s v) := by
  induction depth generalizing s v active with
  | zero =>
    have hlt := unvisited_lt (extends_visit hv) hmem hv (visited_visit.2 (.inl rfl))
    omega
  | succ depth ih =>
    have hfollow : ∀ ws done t, (∀ w ∈ ws, g.Edge v w) → Following g active v s done t →
        Following g active v s (done ++ ws) (ws.foldl (follow (g.connect depth) v) t) := by
      intro ws
      induction ws with
      | nil => exact fun done t _ h => by simpa using h
      | cons w ws ihw =>
        intro done t hedges h
        have hedge : g.Edge v w := hedges w (List.mem_cons_self ..)
        have hlt : unvisited g t < unvisited g s := unvisited_lt h.extends_ hmem hv h.visited
        have hstep : Following g active v s (done ++ [w]) (follow (g.connect depth) v t w) := by
          refine h.follow hs hv hedge fun hw => ?_
          refine ih h.inv (g.targets_mem v w hedge) hw (fun a ha => ?_) (by omega)
          rcases List.mem_cons.1 ha with rfl | ha
          · exact .single hedge
          · exact (hreach a ha).tail hedge
        rw [List.append_cons]
        exact ihw _ _ (fun x hx => hedges x (List.mem_cons_of_mem _ hx)) hstep
    have hdone := hfollow (g.targets v) [] (s.visit v) (fun w hw => hw)
      (.start hs hmem hv hreach)
    exact hdone.finish hs hreach

theorem searchFrom_spec (hs : s.Inv g []) (hmem : v ∈ g.nodes) :
    (g.searchFrom s v).Inv g [] ∧ s.Extends (g.searchFrom s v) ∧ (g.searchFrom s v).Visited v := by
  unfold searchFrom
  by_cases hv : s.Visited v
  · rw [index_eq hv]
    exact ⟨hs, .refl s, hv⟩
  · have hcount : unvisited g s ≤ g.nodes.length :=
      (Finset.card_filter_le _ _).trans (List.toFinset_card_le _)
    obtain ⟨hinv, hext, hvisited, -⟩ := connect_spec hs hmem hv (by simp) hcount
    rw [if_pos (by simpa [Visited] using hv)]
    exact ⟨hinv, hext, hvisited⟩

theorem foldl_searchFrom_spec (vs : List α) (hmem : ∀ v ∈ vs, v ∈ g.nodes) (hs : s.Inv g []) :
    (vs.foldl g.searchFrom s).Inv g [] ∧ s.Extends (vs.foldl g.searchFrom s) ∧
      ∀ v ∈ vs, (vs.foldl g.searchFrom s).Visited v := by
  induction vs generalizing s with
  | nil => exact ⟨hs, .refl s, by simp⟩
  | cons v vs ih =>
    obtain ⟨hinv, hext, hv⟩ := searchFrom_spec hs (hmem v (List.mem_cons_self ..))
    obtain ⟨hinv', hext', hvs⟩ := ih (fun w hw => hmem w (List.mem_cons_of_mem _ hw)) hinv
    refine ⟨hinv', hext.trans hext', fun w hw => ?_⟩
    rcases List.mem_cons.1 hw with rfl | hw
    · exact hext'.visited hv
    · exact hvs w hw

/-- The search ends at no node, and has reached all of them. -/
theorem search_spec (g : Graph α) :
    g.search.Inv g [] ∧ ∀ a ∈ g.nodes, g.search.Visited a := by
  have hstart : ({} : Search α).Inv g [] := by
    constructor <;> simp [Visited, Closed]
  obtain ⟨hinv, -, hvisited⟩ := foldl_searchFrom_spec g.nodes (fun _ h => h) hstart
  exact ⟨hinv, hvisited⟩

/-- The search ends with the component of every node complete. -/
theorem closed_search : g.search.Closed a ↔ a ∈ g.nodes := by
  obtain ⟨hinv, hvisited⟩ := search_spec g
  refine ⟨fun ha => hinv.mem_nodes a ((hinv.visited_iff a).2 (.inr ha)), fun ha => ?_⟩
  refine ((hinv.visited_iff a).1 (hvisited a ha)).resolve_left fun hstack => ?_
  obtain ⟨b, hb, -⟩ := hinv.downward a hstack
  exact List.not_mem_nil hb

end Graph

end ContractLowering
