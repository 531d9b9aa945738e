import ContractLowering.ScopeMap
import Mathlib.Logic.Function.Basic

/-!
# Laws of scope maps

What a scope map holds is its look-up function: an insertion updates it at one key, and so does
every step that undoes one. `Reverts m outer` says that closing the innermost scope of `m` gives
back what `outer` holds. It is true when the scope is opened and stays true under insertions.

Over a run of steps the map behaves as the stack of the open scopes does (`Holds.run`), and a scope
that is entered and left again leaves nothing behind (`run_scope`).
-/

namespace ContractLowering

namespace ScopeMap

variable {κ ν : Type} [DecidableEq κ]

theorem lookup_filter_ne (l : List (κ × ν)) (k j : κ) :
    (l.filter fun b => !(b.1 == k)).lookup j = if j = k then none else l.lookup j := by
  induction l with
  | nil => simp
  | cons b l ih =>
    by_cases hb : b.1 = k
    · rw [List.filter_cons_of_neg (by simp [hb]), ih, List.lookup_cons, hb]
      by_cases hj : j = k
      · simp [hj]
      · simp [beq_eq_false_iff_ne.2 hj]
    · rw [List.filter_cons_of_pos (by simp [hb]), List.lookup_cons, List.lookup_cons, ih]
      by_cases hjb : j = b.1
      · simp [hjb, hb]
      · simp [beq_eq_false_iff_ne.2 hjb]

/-- Putting a value back updates the look-up function. -/
theorem lookup_restore (l : List (κ × ν)) (change : κ × Option ν) :
    (fun j => (restore l change).lookup j) =
      Function.update (fun j => l.lookup j) change.1 change.2 := by
  obtain ⟨k, o⟩ := change
  funext j
  by_cases hj : j = k
  · subst hj
    cases o <;> simp [restore, lookup_filter_ne]
  · rw [Function.update_of_ne hj]
    cases o <;> simp [restore, lookup_filter_ne, hj, List.lookup_cons, beq_eq_false_iff_ne.2 hj]

theorem lookup_foldl_restore (changes : List (κ × Option ν)) (l : List (κ × ν)) :
    (fun j => (changes.foldl restore l).lookup j) =
      changes.foldl (fun f c => Function.update f c.1 c.2) fun j => l.lookup j := by
  induction changes generalizing l with
  | nil => rfl
  | cons c changes ih => rw [List.foldl_cons, List.foldl_cons, ih, lookup_restore]

/-! ## Maps with the same contents -/

/-- Two maps hold the same bindings, and closing scopes will undo the same. -/
structure Same (m m' : ScopeMap κ ν) : Prop where
  get? : m.get? = m'.get?
  undo : m.undo = m'.undo

namespace Same

variable {m m' m'' : ScopeMap κ ν}

theorem refl (m : ScopeMap κ ν) : Same m m := ⟨rfl, rfl⟩

theorem symm (h : Same m m') : Same m' m := ⟨h.get?.symm, h.undo.symm⟩

theorem trans (h : Same m m') (h' : Same m' m'') : Same m m'' :=
  ⟨h.get?.trans h'.get?, h.undo.trans h'.undo⟩

theorem contains (h : Same m m') (k : κ) : m.contains k = m'.contains k := by
  rw [ScopeMap.contains, h.get?, ScopeMap.contains]

end Same

/-! ## Closing a scope -/

/-- Closing the innermost scope gives back what another map holds. -/
def Reverts (m outer : ScopeMap κ ν) : Prop := ∃ m', m.leave? = some m' ∧ Same m' outer

variable {m m' outer : ScopeMap κ ν}

theorem reverts_iff : Reverts m outer ↔ ∃ changes, m.undo = changes :: outer.undo ∧
    changes.foldl (fun f c => Function.update f c.1 c.2) m.get? = outer.get? := by
  unfold Reverts leave?
  constructor
  · rintro ⟨m', hm', hget, hundo⟩
    split at hm'
    · cases hm'
    · rename_i changes rest hm
      obtain rfl := Option.some.inj hm'
      exact ⟨changes, by rw [hm, ← hundo], (lookup_foldl_restore ..).symm.trans hget⟩
  · rintro ⟨changes, hundo, hget⟩
    rw [hundo]
    exact ⟨_, rfl, (lookup_foldl_restore ..).trans hget, rfl⟩

theorem reverts_enter (m : ScopeMap κ ν) : Reverts m.enter m := ⟨_, rfl, .refl m⟩

theorem Reverts.of_same (h : Reverts m outer) (hm : Same m' m) : Reverts m' outer := by
  rw [reverts_iff] at h ⊢
  rwa [hm.undo, hm.get?]

/-- An insertion updates the map at its key, and is undone with its scope. -/
theorem Reverts.insert (h : Reverts m outer) (k : κ) (v : ν) : ∃ m',
    m.insert? k v = some ((m.get? k).isSome, m') ∧ m'.get? = Function.update m.get? k (some v) ∧
      Reverts m' outer := by
  obtain ⟨changes, hundo, hget⟩ := reverts_iff.1 h
  refine ⟨⟨restore m.bindings (k, some v), ((k, m.get? k) :: changes) :: outer.undo⟩, ?_,
    lookup_restore m.bindings (k, some v), ?_⟩
  · unfold insert?
    rw [hundo]
  · refine reverts_iff.2 ⟨_, rfl, ?_⟩
    show changes.foldl _ (Function.update (fun j => (restore m.bindings (k, some v)).lookup j) k
      (m.get? k)) = _
    rw [lookup_restore, Function.update_idem]
    exact (congrArg (changes.foldl _) (Function.update_eq_self k m.get?)).trans hget

/-! ## Runs and the stack of scopes -/

/-- One use of a scope map. -/
inductive Step (κ ν : Type) where
  | enter
  | insert (k : κ) (v : ν)
  | leave
deriving DecidableEq

/-- Takes steps one after the other: what the insertions answer, and the map they leave behind;
`none` if a step needs an open scope and there is none. -/
def run (m : ScopeMap κ ν) : List (Step κ ν) → Option (List Bool × ScopeMap κ ν)
  | [] => some ([], m)
  | .enter :: steps => m.enter.run steps
  | .insert k v :: steps =>
    (m.insert? k v).bind fun bound => (bound.2.run steps).map fun r => (bound.1 :: r.1, r.2)
  | .leave :: steps => m.leave?.bind fun m => m.run steps

/-- How many of `n` open scopes and those opened by the steps are open after the steps; `none` if
they close more. -/
def opened (n : Nat) : List (Step κ ν) → Option Nat
  | [] => some n
  | .enter :: steps => opened (n + 1) steps
  | .insert .. :: steps => opened n steps
  | .leave :: steps => match n with
    | 0 => none
    | n + 1 => opened n steps

end ScopeMap

/-- The open scopes, innermost first, each with what was inserted in it, latest first. -/
abbrev ScopeStack (κ ν : Type) := List (List (κ × ν))

namespace ScopeStack

variable {κ ν : Type} [DecidableEq κ]

/-- The latest insertion of a key in the innermost scope that has the key. -/
def get? (s : ScopeStack κ ν) (k : κ) : Option ν := s.findSome? (·.lookup k)

/-- The same steps on a stack of scopes. -/
def run : ScopeStack κ ν → List (ScopeMap.Step κ ν) → Option (List Bool × ScopeStack κ ν)
  | s, [] => some ([], s)
  | s, .enter :: steps => run ([] :: s) steps
  | [], .insert .. :: _ | [], .leave :: _ => none
  | scope :: outer, .insert k v :: steps =>
    (run (((k, v) :: scope) :: outer) steps).map fun r =>
      ((get? (scope :: outer) k).isSome :: r.1, r.2)
  | _ :: outer, .leave :: steps => run outer steps

end ScopeStack

namespace ScopeStack

variable {κ ν : Type} [DecidableEq κ]

@[simp] theorem get?_enter (s : ScopeStack κ ν) : get? ([] :: s) = get? s := rfl

theorem get?_insert (scope : List (κ × ν)) (outer : ScopeStack κ ν) (k : κ) (v : ν) :
    get? (((k, v) :: scope) :: outer) = Function.update (get? (scope :: outer)) k (some v) := by
  funext j
  by_cases hj : j = k
  · subst hj
    simp [get?]
  · rw [Function.update_of_ne hj]
    simp [get?, List.findSome?_cons, List.lookup_cons, beq_eq_false_iff_ne.2 hj]

end ScopeStack

namespace ScopeMap

variable {κ ν : Type} [DecidableEq κ] {m m' outer : ScopeMap κ ν}

/-- A map holds a stack: look-ups agree, and closing the innermost scope gives back a map that
holds the rest of the stack. -/
inductive Holds : ScopeMap κ ν → ScopeStack κ ν → Prop
  | nil {m : ScopeMap κ ν} : m.undo = [] → m.get? = ScopeStack.get? [] → Holds m []
  | cons {m outer : ScopeMap κ ν} {scope : List (κ × ν)} {s : ScopeStack κ ν} :
    Reverts m outer → Holds outer s → m.get? = ScopeStack.get? (scope :: s) → Holds m (scope :: s)

namespace Holds

variable {s : ScopeStack κ ν}

theorem get? (h : Holds m s) : m.get? = s.get? := by
  cases h with
  | nil _ hget => exact hget
  | cons _ _ hget => exact hget

theorem of_same (h : Holds m s) (hm : Same m' m) : Holds m' s := by
  cases h with
  | nil hundo hget => exact .nil (hm.undo.trans hundo) (hm.get?.trans hget)
  | cons hrev houter hget => exact .cons (hrev.of_same hm) houter (hm.get?.trans hget)

theorem depth (h : Holds m s) : m.depth = s.length := by
  induction h with
  | nil hundo => rw [ScopeMap.depth, hundo]; rfl
  | cons hrev _ _ ih =>
    obtain ⟨changes, hundo, _⟩ := reverts_iff.1 hrev
    rw [ScopeMap.depth, hundo, List.length_cons, List.length_cons, ← ih, ScopeMap.depth]

theorem empty : Holds (empty : ScopeMap κ ν) [] := .nil rfl rfl

theorem enter (h : Holds m s) : Holds m.enter ([] :: s) := .cons (reverts_enter m) h h.get?

/-- A map and the stack that it holds take the same steps: neither can, or both can with the same
answers, and then the map holds the stack again. -/
theorem run (h : Holds m s) (steps : List (Step κ ν)) :
    (m.run steps = none ∧ s.run steps = none) ∨
      ∃ answers m' s', m.run steps = some (answers, m') ∧ s.run steps = some (answers, s') ∧
        Holds m' s' := by
  induction steps generalizing m s with
  | nil => exact .inr ⟨[], m, s, rfl, by rw [ScopeStack.run], h⟩
  | cons step steps ih =>
    cases step with
    | enter => exact ih h.enter
    | insert k v =>
      cases h with
      | nil hundo _ =>
        have hins : m.insert? k v = none := by rw [insert?, hundo]
        exact .inl ⟨by rw [ScopeMap.run, hins]; rfl, rfl⟩
      | @cons _ outer scope s hrev houter hget =>
        obtain ⟨m', hins, hget', hrev'⟩ := hrev.insert k v
        have hm' : Holds m' (((k, v) :: scope) :: s) :=
          .cons hrev' houter (by rw [hget', hget, ScopeStack.get?_insert])
        rw [ScopeMap.run, hins, ScopeStack.run, ← hget, Option.bind_some]
        obtain ⟨hm, hs⟩ | ⟨answers, m'', s', hm, hs, hholds⟩ := ih hm'
        · exact .inl ⟨by rw [hm]; rfl, by rw [hs]; rfl⟩
        · exact .inr ⟨_ :: answers, m'', s', by rw [hm]; rfl, by rw [hs]; rfl, hholds⟩
    | leave =>
      cases h with
      | nil hundo _ =>
        have hleave : m.leave? = none := by rw [leave?, hundo]
        exact .inl ⟨by rw [ScopeMap.run, hleave]; rfl, rfl⟩
      | cons hrev houter _ =>
        obtain ⟨m', hleave, hsame⟩ := hrev
        rw [ScopeMap.run, hleave]
        exact ih (houter.of_same hsame)

end Holds

/-- A map from the bottom up: closing `n` scopes and one more gives back what `base` holds. -/
def Above (base : ScopeMap κ ν) : Nat → ScopeMap κ ν → Prop
  | 0, m => Reverts m base
  | n + 1, m => ∃ outer, Reverts m outer ∧ Above base n outer

theorem Above.reverts {base : ScopeMap κ ν} {n : Nat} (h : Above base n m) :
    ∃ outer, Reverts m outer ∧ ∀ m', Reverts m' outer → Above base n m' := by
  cases n with
  | zero => exact ⟨base, h, fun _ h' => h'⟩
  | succ n =>
    obtain ⟨outer, hrev, habove⟩ := h
    exact ⟨outer, hrev, fun _ h' => ⟨outer, h', habove⟩⟩

theorem Above.of_same {base : ScopeMap κ ν} {n : Nat} (h : Above base n m) (hm : Same m' m) :
    Above base n m' := by
  obtain ⟨outer, hrev, hback⟩ := h.reverts
  exact hback m' (hrev.of_same hm)

/-- Steps that close only scopes which they open keep what is below. -/
theorem Above.run {base : ScopeMap κ ν} {steps : List (Step κ ν)} {n k : Nat}
    (h : Above base n m) (hk : opened n steps = some k) :
    ∃ answers m', m.run steps = some (answers, m') ∧ Above base k m' := by
  induction steps generalizing m n with
  | nil =>
    obtain rfl := Option.some.inj hk
    exact ⟨[], m, rfl, h⟩
  | cons step steps ih =>
    cases step with
    | enter => exact ih (n := n + 1) ⟨m, reverts_enter m, h⟩ hk
    | insert x v =>
      obtain ⟨outer, hrev, hback⟩ := h.reverts
      obtain ⟨m₁, hins, _, hrev₁⟩ := hrev.insert x v
      obtain ⟨answers, m', hrun, habove⟩ := ih (hback m₁ hrev₁) hk
      exact ⟨(m.get? x).isSome :: answers, m', by simp [ScopeMap.run, hins, hrun], habove⟩
    | leave =>
      cases n with
      | zero => cases hk
      | succ n =>
        obtain ⟨outer, ⟨m₁, hleave, hsame⟩, habove⟩ := h
        obtain ⟨answers, m', hrun, habove'⟩ := ih (habove.of_same hsame) hk
        exact ⟨answers, m', by rw [ScopeMap.run, hleave]; exact hrun, habove'⟩

theorem run_append (m : ScopeMap κ ν) (steps steps' : List (Step κ ν)) :
    m.run (steps ++ steps') = (m.run steps).bind fun r =>
      (r.2.run steps').map fun r' => (r.1 ++ r'.1, r'.2) := by
  induction steps generalizing m with
  | nil => simp [run]
  | cons step steps ih =>
    cases step with
    | enter => exact ih m.enter
    | insert k v =>
      simp only [List.cons_append, run, ih]
      rcases m.insert? k v with _ | ⟨bound, m'⟩
      · rfl
      · simp only [Option.bind_some]
        cases m'.run steps with
        | none => rfl
        | some r => simp [Function.comp_def]
    | leave =>
      simp only [List.cons_append, run]
      cases m.leave? with
      | none => rfl
      | some m' => exact ih m'

/-- Leaving a scope restores what the map held when the scope was entered. -/
theorem run_scope (m : ScopeMap κ ν) {inner : List (Step κ ν)} (h : opened 0 inner = some 0) :
    ∃ answers m', m.run (.enter :: inner ++ [.leave]) = some (answers, m') ∧ Same m' m := by
  obtain ⟨answers, m₁, hrun, m', hleave, hsame⟩ := Above.run (n := 0) (reverts_enter m) h
  refine ⟨answers, m', ?_, hsame⟩
  have hback : m₁.run [.leave] = some ([], m') := by rw [run, hleave]; rfl
  rw [List.cons_append, run, run_append, hrun, Option.bind_some, hback]
  simp

end ScopeMap

end ContractLowering
