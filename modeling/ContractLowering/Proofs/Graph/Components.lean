import ContractLowering.Proofs.Graph.Search
import Mathlib.Data.Set.Card

/-!
# What the components of a graph answer

When the search is over, two nodes have the same component exactly when each leads to the other
(`exists_component`), and the answers follow. A node and an edge of a graph are those some step of
building it adds, whatever the order of the steps, so the answers do not depend on the order either
(`components_answer`).
-/

namespace ContractLowering

variable {α : Type}

namespace Graph

open Search

variable [DecidableEq α] {g : Graph α} {a b : α}

theorem componentOf_eq_none (ha : a ∉ g.nodes) : g.components.componentOf a = none :=
  Option.not_isSome_iff_eq_none.1 fun h => ha (closed_search.1 h)

/-- The component of a node holds the nodes that lead to it and that it leads to. -/
theorem exists_component (ha : a ∈ g.nodes) : ∃ i ms, g.components.componentOf a = some i ∧
    g.components.members[i]? = some ms ∧ ms.Nodup ∧ ∀ b, b ∈ ms ↔ g.Mutual a b := by
  obtain ⟨hinv, -⟩ := search_spec g
  have hclosed : g.search.Closed a := closed_search.2 ha
  obtain ⟨i, hi⟩ := Option.isSome_iff_exists.1 hclosed
  obtain ⟨ms, hms, -⟩ := (hinv.members a i).1 hi
  refine ⟨i, ms, hi, hms, hinv.nodup ms (List.mem_of_getElem? hms), fun b => ?_⟩
  have hb : b ∈ ms ↔ g.search.componentOf b = some i := by
    rw [hinv.members b i]
    simp [hms]
  rw [hb]
  constructor
  · intro hb
    have hclosed' : g.search.Closed b := by simp [Closed, hb]
    exact (hinv.same a b hclosed hclosed').1 (hi.trans hb.symm)
  · intro hab
    have hclosed' : g.search.Closed b := hinv.reaches_closed hclosed hab.1
    exact ((hinv.same a b hclosed hclosed').2 hab).symm.trans hi

/-- Two nodes are in one component when they are equal, or in the graph and lead to each other. -/
theorem inSame_iff : g.components.inSame a b = true ↔
    a = b ∨ a ∈ g.nodes ∧ b ∈ g.nodes ∧ g.Mutual a b := by
  rw [Components.inSame, Bool.or_eq_true, beq_iff_eq]
  refine or_congr_right ?_
  by_cases ha : a ∈ g.nodes
  · by_cases hb : b ∈ g.nodes
    · obtain ⟨hinv, -⟩ := search_spec g
      obtain ⟨i, -, hi, -⟩ := exists_component ha
      obtain ⟨j, -, hj, -⟩ := exists_component hb
      have hsame := hinv.same a b (closed_search.2 ha) (closed_search.2 hb)
      rw [show g.search.componentOf a = some i from hi,
        show g.search.componentOf b = some j from hj, Option.some.injEq] at hsame
      simp [hi, hj, ha, hb, hsame]
    · simp [componentOf_eq_none hb, hb]
  · simp [componentOf_eq_none ha, ha]

/-- The size of the component of a node. -/
theorem size_eq_ncard (ha : a ∈ g.nodes) :
    g.components.size a = {b | g.Mutual a b}.ncard := by
  obtain ⟨i, ms, hi, hms, hnodup, hmem⟩ := exists_component ha
  have hset : {b | g.Mutual a b} = (ms.toFinset : Set α) := by
    ext b
    simp [hmem]
  rw [hset, Set.ncard_coe_finset, List.toFinset_card_of_nodup hnodup]
  simp [Components.size, hi, hms]

theorem size_eq_one (ha : a ∉ g.nodes) : g.components.size a = 1 := by
  simp [Components.size, componentOf_eq_none ha]

/-- A component has several nodes when a node of it and another one lead to each other. -/
theorem one_lt_size : 1 < g.components.size a ↔ a ∈ g.nodes ∧ ∃ b, b ≠ a ∧ g.Mutual a b := by
  by_cases ha : a ∈ g.nodes
  · obtain ⟨i, ms, hi, hms, hnodup, hmem⟩ := exists_component ha
    have hself : a ∈ ms := (hmem a).2 ⟨.refl, .refl⟩
    have hsize : g.components.size a = ms.toFinset.card := by
      simp [Components.size, hi, hms, List.toFinset_card_of_nodup hnodup]
    rw [hsize, Finset.one_lt_card_iff_nontrivial]
    constructor
    · intro h
      obtain ⟨b, hb, hne⟩ := h.exists_ne a
      exact ⟨ha, b, hne, (hmem b).1 (List.mem_toFinset.1 hb)⟩
    · rintro ⟨-, b, hne, hab⟩
      exact ⟨b, by simp [hmem, hab], a, by simp [hself], hne⟩
  · simp [size_eq_one ha, ha]

/-- A node is on a cycle when it leads to itself in one or more steps. -/
theorem isInCycle_iff : g.components.isInCycle a = true ↔ Relation.TransGen g.Edge a a := by
  have hself : g.components.hasSelfEdge a = true ↔ g.Edge a a := decide_eq_true_iff
  rw [Components.isInCycle, Bool.or_eq_true, hself, decide_eq_true_eq, one_lt_size]
  constructor
  · rintro (hedge | ⟨-, b, hne, hab, hba⟩)
    · exact .single hedge
    · have hab' : Relation.TransGen g.Edge a b :=
        (Relation.reflTransGen_iff_eq_or_transGen.1 hab).resolve_left hne
      exact hab'.trans_left hba
  · intro h
    obtain ⟨b, hedge, hba⟩ := Relation.TransGen.head'_iff.1 h
    obtain ⟨c, -, hca⟩ := Relation.TransGen.tail'_iff.1 h
    by_cases hne : b = a
    · exact .inl (hne ▸ hedge)
    · exact .inr ⟨g.targets_mem c a hca, b, hne, .single hedge, hba⟩

end Graph

/-! ## Graphs built by steps -/

namespace Insertion

/-- Some step adds a node. -/
def Known (steps : List (Insertion α)) (a : α) : Prop := ∃ step ∈ steps, a ∈ step.ends

/-- Some step adds an edge. -/
def Linked (steps : List (Insertion α)) (a b : α) : Prop := .edge a b ∈ steps

/-- A node leads to another along the edges added, in no, one or more steps. -/
abbrev Leads (steps : List (Insertion α)) : α → α → Prop := Relation.ReflTransGen (Linked steps)

variable {steps steps' : List (Insertion α)}

theorem known_of_perm (h : steps.Perm steps') : Known steps' = Known steps :=
  funext fun a => propext (by simp only [Known, h.mem_iff])

theorem linked_of_perm (h : steps.Perm steps') : Linked steps' = Linked steps :=
  funext₂ fun _ _ => propext h.mem_iff.symm

end Insertion

namespace Graph

open Insertion

variable [DecidableEq α] {steps : List (Insertion α)} {a b : α}

theorem edge_eq_linked : (ofInsertions steps).Edge = Linked steps :=
  funext₂ fun _ _ => propext edge_ofInsertions

theorem inSame_ofInsertions : (ofInsertions steps).components.inSame a b = true ↔
    a = b ∨ (Known steps a ∧ Known steps b) ∧ Leads steps a b ∧ Leads steps b a := by
  rw [inSame_iff, mem_nodes_ofInsertions, mem_nodes_ofInsertions, Mutual, Reaches, edge_eq_linked,
    ← and_assoc]
  rfl

theorem isInCycle_ofInsertions : (ofInsertions steps).components.isInCycle a = true ↔
    Relation.TransGen (Linked steps) a a := by
  rw [isInCycle_iff, edge_eq_linked]

theorem size_ofInsertions (ha : Known steps a) : (ofInsertions steps).components.size a =
    {b | Leads steps a b ∧ Leads steps b a}.ncard := by
  rw [size_eq_ncard (mem_nodes_ofInsertions.2 ha)]
  simp only [Mutual, Reaches, edge_eq_linked]

theorem size_ofInsertions_unknown (ha : ¬ Known steps a) :
    (ofInsertions steps).components.size a = 1 :=
  size_eq_one fun h => ha (mem_nodes_ofInsertions.1 h)

/-- What the components of a graph answer, by the steps that built it: two nodes are in one
component when they are equal, or known and lead to each other; a node is on a cycle when it leads
to itself in one or more steps; and the size of the component of a known node is the number of nodes
that it leads to and that lead to it. So the order of the steps changes no answer. -/
theorem components_answer (steps : List (Insertion α)) :
    let c := (ofInsertions steps).components
    (∀ a b, c.inSame a b = true ↔
      a = b ∨ (Known steps a ∧ Known steps b) ∧ Leads steps a b ∧ Leads steps b a) ∧
    (∀ a, c.isInCycle a = true ↔ Relation.TransGen (Linked steps) a a) ∧
    (∀ a, Known steps a → c.size a = {b | Leads steps a b ∧ Leads steps b a}.ncard) ∧
    (∀ a, ¬ Known steps a → c.size a = 1) ∧
    ∀ steps', steps.Perm steps' →
      let c' := (ofInsertions steps').components
      (∀ a b, c'.inSame a b = c.inSame a b) ∧ (∀ a, c'.isInCycle a = c.isInCycle a) ∧
        ∀ a, c'.size a = c.size a := by
  refine ⟨fun _ _ => inSame_ofInsertions, fun _ => isInCycle_ofInsertions,
    fun a => size_ofInsertions, fun a => size_ofInsertions_unknown, fun steps' hperm => ?_⟩
  have hknown : Known steps' = Known steps := known_of_perm hperm
  have hlinked : Linked steps' = Linked steps := linked_of_perm hperm
  refine ⟨fun a b => ?_, fun a => ?_, fun a => ?_⟩
  · rw [Bool.eq_iff_iff, inSame_ofInsertions, inSame_ofInsertions, hknown, Leads, hlinked]
  · rw [Bool.eq_iff_iff, isInCycle_ofInsertions, isInCycle_ofInsertions, hlinked]
  · by_cases ha : Known steps a
    · have ha' : Known steps' a := hknown ▸ ha
      rw [size_ofInsertions ha, size_ofInsertions ha', Leads, hlinked]
    · have ha' : ¬ Known steps' a := hknown ▸ ha
      rw [size_ofInsertions_unknown ha, size_ofInsertions_unknown ha']

/-- A cycle of two nodes with an edge out of it, and what it answers when it is built backwards. -/
theorem components_answer_cycle :
    let steps : List (Insertion Nat) := [.edge 1 2, .edge 2 1, .edge 2 3]
    Known steps 2 ∧ ¬ Known steps 7 ∧
      (ofInsertions steps).components.size 2 = {b | Leads steps 2 b ∧ Leads steps b 2}.ncard ∧
      (ofInsertions steps).components.size 7 = 1 ∧
      steps.Perm steps.reverse ∧
      (ofInsertions steps.reverse).components.size 2 = (ofInsertions steps).components.size 2 := by
  intro steps
  have hknown : Known steps 2 := ⟨.edge 1 2, by decide, by decide⟩
  have hunknown : ¬ Known steps 7 := by simp [Known, steps, Insertion.ends]
  have hperm : steps.Perm steps.reverse := (List.reverse_perm steps).symm
  obtain ⟨-, -, hsize, hone, horder⟩ := components_answer steps
  exact ⟨hknown, hunknown, hsize 2 hknown, hone 7 hunknown, hperm, (horder _ hperm).2.2 2⟩

example :
    let c := (ofInsertions [.edge 1 2, .edge 2 1, .edge 2 3]).components
    c.inSame 1 2 ∧ ¬ c.inSame 1 3 ∧ c.isInCycle 1 ∧ ¬ c.isInCycle 3 ∧ c.size 2 = 2 := by decide

end Graph

end ContractLowering
