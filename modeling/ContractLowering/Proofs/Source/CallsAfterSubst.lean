import ContractLowering.Proofs.Source.Substitution

/-!
# Calls in a substituted expression

A call that occurs after a substitution was brought in with a value, or it is a call of the
expression itself with the substitution carried into its arguments (`call_subst`). What is carried
below a binder are values of the substitution and variables that stand for renamed binders
(`Subst.carries_enter`).
-/

namespace ContractLowering.Source

namespace Subst

variable {s s' s'' : Subst}

/-- The expressions that a substitution brings in. -/
def values (s : Subst) : List Expr := s.receiver.toList ++ s.map.map (·.2)

theorem mem_values {e : Expr} :
    e ∈ s.values ↔ s.receiver = some e ∨ ∃ x, (x, e) ∈ s.map := by
  simp [values]

/-- One substitution brings in what another one does, and variables. -/
def Carries (s' s : Subst) : Prop := ∀ e ∈ s'.values, e ∈ s.values ∨ ∃ i x, e = .var i x

theorem Carries.refl (s : Subst) : s.Carries s := fun _ he => .inl he

theorem Carries.trans (h : s''.Carries s') (h' : s'.Carries s) : s''.Carries s :=
  fun e he => (h e he).elim (h' e) .inr

theorem carries_restrict (s : Subst) (bound : List String) (scope : List Expr) :
    (s.restrict bound scope).Carries s := by
  intro e he
  refine .inl (mem_values.2 ?_)
  rcases mem_values.1 he with h | ⟨x, h⟩
  · simp only [restrict] at h
    split at h
    · exact .inl h
    · cases h
  · exact .inr ⟨x, (List.mem_filter.1 h).1⟩

theorem renames_var {clash : List String} {span : Span} {avoid : List String} {bs : List Binder}
    {p : String × Expr} (hp : p ∈ (renameClashes clash span avoid bs).2) :
    ∃ i x, p.2 = .var i x := by
  induction bs generalizing avoid with
  | nil => simp [renameClashes] at hp
  | cons b bs ih =>
    rw [renameClashes] at hp
    split at hp
    · rcases List.mem_cons.1 hp with rfl | hp
      · exact ⟨_, _, rfl⟩
      · exact ih hp
    · exact ih hp

theorem mem_foldl_bind {p : String × Expr} {bs map : List (String × Expr)}
    (hp : p ∈ bs.foldl bind map) : p ∈ bs ∨ p ∈ map := by
  induction bs generalizing map with
  | nil => exact .inr hp
  | cons b bs ih =>
    rcases ih hp with hp | hp
    · exact .inl (List.mem_cons_of_mem _ hp)
    · rcases List.mem_cons.1 hp with rfl | hp
      · exact .inl List.mem_cons_self
      · exact .inr (List.mem_filter.1 hp).1

/-- The values of a substitution made of bindings are the receiver and what is bound. -/
theorem mem_values_ofBindings {receiver : Option Expr} {bs : List (String × Expr)} {e : Expr}
    (he : e ∈ (ofBindings receiver bs).values) : receiver = some e ∨ ∃ x, (x, e) ∈ bs := by
  rcases mem_values.1 he with h | ⟨x, h⟩
  · exact .inl h
  · exact .inr ⟨x, (mem_foldl_bind h).resolve_right (by simp)⟩

/-- Variables may stand for renamed binders. -/
theorem Carries.rename (h : s'.Carries s) {renames : List (String × Expr)}
    (hvars : ∀ p ∈ renames, ∃ i x, p.2 = .var i x) :
    Carries { s' with map := renames.foldl bind s'.map } s := by
  intro e he
  rcases mem_values.1 he with hreceiver | ⟨x, hx⟩
  · exact h e (mem_values.2 (.inl hreceiver))
  · rcases mem_foldl_bind hx with hx | hx
    · exact .inr (hvars _ hx)
    · exact h e (mem_values.2 (.inr ⟨x, hx⟩))

/-- What is carried below binders. -/
theorem carries_enter (s : Subst) (bs : List Binder) (first : Expr) (others : List Expr) :
    (s.enter bs first others).1.Carries s := by
  rw [enter]
  dsimp only
  split
  · exact carries_restrict s _ _
  · exact (carries_restrict s _ _).rename fun p hp => renames_var hp

end Subst

namespace Expr

open Subst (Carries)

variable {e d : Expr} {s : Subst}

/-- An expression comes from a part of another one by a substitution that carries no more than a
given one, or it is a variable. -/
def ComesFrom (s : Subst) (e d : Expr) : Prop :=
  (∃ p ∈ e.parts, ∃ s', Carries s' s ∧ d = p.2.subst s') ∨ ∃ i x, d = .var i x

theorem ComesFrom.part {p : List String × Expr} (hp : p ∈ e.parts) :
    ComesFrom s e (p.2.subst s) :=
  .inl ⟨p, hp, s, .refl s, rfl⟩

theorem ComesFrom.below {p : List String × Expr} (hp : p ∈ e.parts) (bs : List Binder)
    (first : Expr) (others : List Expr) :
    ComesFrom s e (p.2.subst (s.enter bs first others).1) :=
  .inl ⟨p, hp, _, s.carries_enter bs first others, rfl⟩

/-- Substitution turns a node into a value, or into a node whose parts come from its parts. -/
theorem parts_subst (s : Subst) (e : Expr) :
    e.subst s ∈ s.values ∨ ∀ p ∈ (e.subst s).parts, ComesFrom s e p.2 := by
  cases e with
  | bool | int | null => exact .inr (by simp [parts])
  | var i x =>
    rw [subst_var]
    cases h : s.map.lookup x with
    | none => exact .inr (by simp [parts])
    | some a => exact .inl (Subst.mem_values.2 (.inr ⟨x, Subst.mem_of_lookup h⟩))
  | this i =>
    rw [subst_this]
    cases h : s.receiver with
    | none => exact .inr (by simp [parts])
    | some a => exact .inl (Subst.mem_values.2 (.inl h))
  | field | arrayLength | destruct | isCtor | old | fresh | unary =>
    refine .inr fun p hp => ?_
    simp only [subst_field, subst_arrayLength, subst_destruct, subst_isCtor, subst_old, subst_fresh,
      subst_unary, parts, List.mem_singleton] at hp
    obtain rfl := hp
    exact .part (p := ([], _)) (by simp [parts])
  | index | binary =>
    refine .inr fun p hp => ?_
    simp only [subst_index, subst_binary, parts, List.mem_cons, List.not_mem_nil, or_false] at hp
    rcases hp with rfl | rfl
    · exact .part (p := ([], _)) (by simp [parts])
    · exact .part (p := ([], _)) (by simp [parts])
  | update | ite =>
    refine .inr fun p hp => ?_
    simp only [subst_update, subst_ite, parts, List.mem_cons, List.not_mem_nil, or_false] at hp
    rcases hp with rfl | rfl | rfl
    · exact .part (p := ([], _)) (by simp [parts])
    · exact .part (p := ([], _)) (by simp [parts])
    · exact .part (p := ([], _)) (by simp [parts])
  | slice i a lo hi =>
    refine .inr fun p hp => ?_
    simp only [subst_slice, parts, List.map_cons, List.mem_cons, List.mem_map, List.mem_append,
      Option.mem_toList, Option.map_eq_some_iff] at hp
    rcases hp with rfl | ⟨_, ⟨a, ha, rfl⟩ | ⟨a, ha, rfl⟩, rfl⟩
    · exact .part (p := ([], _)) (by simp [parts])
    · exact .part (p := ([], a)) (by simp [parts, ha])
    · exact .part (p := ([], a)) (by simp [parts, ha])
  | display i k es | ctor i d k es =>
    refine .inr fun p hp => ?_
    simp only [subst_display, subst_ctor, parts, List.map_map, List.mem_map] at hp
    obtain ⟨a, ha, rfl⟩ := hp
    exact .part (p := ([], a)) (by simpa [parts] using ha)
  | mapDisplay i kvs =>
    refine .inr fun p hp => ?_
    simp only [subst_mapDisplay, parts, List.map_map, List.mem_append, List.mem_map] at hp
    rcases hp with ⟨kv, hkv, rfl⟩ | ⟨kv, hkv, rfl⟩
    · exact .part (p := ([], kv.1)) (by simpa [parts] using .inl ⟨_, hkv⟩)
    · exact .part (p := ([], kv.2)) (by simpa [parts] using .inr ⟨_, hkv⟩)
  | quant i q bs r b ts ind =>
    refine .inr fun p hp => ?_
    simp only [subst_quant, parts, List.map_cons, List.mem_cons, List.mem_map, List.mem_append,
      Option.mem_toList, List.mem_flatten, Option.map_eq_some_iff, exists_exists_and_eq_and] at hp
    rcases hp with rfl | ⟨_, ⟨a, ha, rfl⟩ | ⟨t, ht, a, ha, rfl⟩, rfl⟩
    · exact .below (p := (bs.map (·.1), b)) (by simp [parts]) ..
    · exact .below (p := (bs.map (·.1), a)) (by simp [parts, ha]) ..
    · exact .below (p := (bs.map (·.1), a)) (by simpa [parts] using .inr (.inr ⟨t, ht, ha⟩)) ..
  | setComp i bs r t =>
    obtain ⟨t', heq, ht'⟩ := setComp_subst_eq s i bs r t
    refine .inr fun p hp => ?_
    simp only [heq, parts, List.map_cons, List.mem_cons, List.mem_map, Option.mem_toList] at hp
    rcases hp with rfl | ⟨d, hd, rfl⟩
    · exact .below (p := (bs.map (·.1), r)) (by simp [parts]) ..
    · rcases ht' with rfl | ⟨-, j, x, -, -, rfl, -⟩
      · obtain ⟨a, ha, rfl⟩ := Option.map_eq_some_iff.1 hd
        exact .below (p := (bs.map (·.1), a)) (by simp [parts, ha]) ..
      · cases hd
        exact .inr ⟨j, x, rfl⟩
  | mapComp i b r t =>
    refine .inr fun p hp => ?_
    simp only [subst_mapComp, parts, List.mem_cons, List.not_mem_nil, or_false] at hp
    rcases hp with rfl | rfl
    · exact .below (p := ([b.1], r)) (by simp [parts]) ..
    · exact .below (p := ([b.1], t)) (by simp [parts]) ..
  | letIn i bs b =>
    refine .inr fun p hp => ?_
    simp only [subst_letIn, parts, List.mem_cons, List.mem_map] at hp
    rcases hp with rfl | ⟨⟨x, d⟩, hd, rfl⟩
    · exact .below (p := (bs.map (·.1), b)) (by simp [parts]) ..
    · obtain ⟨y, hy, rfl⟩ := List.mem_map.1 (List.of_mem_zip hd).2
      exact .part (p := ([], y.2)) (by simpa [parts] using .inr ⟨_, hy⟩)
  | cases i a arms =>
    refine .inr fun p hp => ?_
    simp only [subst_cases, parts, List.map_map, List.mem_cons, List.mem_map] at hp
    rcases hp with rfl | ⟨arm, harm, rfl⟩
    · exact .part (p := ([], a)) (by simp [parts])
    · exact .below (p := (arm.1.binders.map (·.1), arm.2))
        (List.mem_cons_of_mem _ (List.mem_map.2 ⟨arm, harm, rfl⟩)) ..
  | call i f r es =>
    refine .inr fun p hp => ?_
    simp only [subst_call, parts, List.mem_map, List.mem_append, Option.mem_toList,
      Option.map_eq_some_iff] at hp
    rcases hp with ⟨_, ⟨a, ha, rfl⟩ | ⟨a, ha, rfl⟩, rfl⟩
    · exact .part (p := ([], a)) (by simp [parts, ha])
    · exact .part (p := ([], a)) (by simp [parts, ha])

theorem mem_subexprs_self (e : Expr) : e ∈ e.subexprs := mem_subexprs.2 (.inl rfl)

theorem mem_subexprs_part {p : List String × Expr} (hp : p ∈ e.parts) (hd : d ∈ p.2.subexprs) :
    d ∈ e.subexprs :=
  mem_subexprs.2 (.inr ⟨p, hp, hd⟩)

/-- A call in a substituted expression is a call of a value, or a call of the expression into whose
receiver and arguments the substitution was carried. -/
theorem call_subst {i : Info} {f : Path} {r : Option Expr} {es : List Expr}
    (h : call i f r es ∈ (e.subst s).subexprs) :
    (∃ a ∈ s.values, call i f r es ∈ a.subexprs) ∨
    ∃ r' es' s', call i f r' es' ∈ e.subexprs ∧ Carries s' s ∧
      r = r'.map (subst s') ∧ es = es'.map (subst s') := by
  induction e using recParts generalizing s with | h e ih => ?_
  rcases parts_subst s e with hvalue | hparts
  · exact .inl ⟨_, hvalue, h⟩
  · rcases mem_subexprs.1 h with h | ⟨p, hp, h⟩
    · -- the call itself is not brought in, so it was a call before
      cases e with
      | call j g r' es' =>
        rw [subst_call] at h
        cases h
        exact .inr ⟨r', es', s, mem_subexprs_self _, .refl s, rfl, rfl⟩
      | setComp j bs q t =>
        obtain ⟨t', heq, -⟩ := setComp_subst_eq s j bs q t
        rw [heq] at h
        cases h
      | var j x =>
        rw [subst_var] at h
        cases hx : s.map.lookup x with
        | none => simp [hx] at h
        | some a =>
          rw [hx] at h
          exact .inl ⟨_, Subst.mem_values.2 (.inr ⟨x, Subst.mem_of_lookup hx⟩),
            h ▸ mem_subexprs_self _⟩
      | this j =>
        rw [subst_this] at h
        cases hr : s.receiver with
        | none => simp [hr] at h
        | some a =>
          rw [hr] at h
          exact .inl ⟨_, Subst.mem_values.2 (.inl hr), h ▸ mem_subexprs_self _⟩
      | quant | mapComp | letIn => simp [subst_quant, subst_mapComp, subst_letIn] at h
      | _ => simp at h
    · rcases hparts p hp with ⟨q, hq, s', hcarries, hpq⟩ | ⟨j, x, hpx⟩
      · rw [hpq] at h
        rcases ih q hq h with ⟨a, ha, h⟩ | ⟨r', es', s'', h, hcarries', hr, hes⟩
        · rcases hcarries a ha with ha | ⟨j, x, rfl⟩
          · exact .inl ⟨a, ha, h⟩
          · simp [subexprs] at h
        · exact .inr ⟨r', es', s'', mem_subexprs_part hq h, hcarries'.trans hcarries, hr, hes⟩
      · simp [hpx, subexprs] at h

end Expr

end ContractLowering.Source
