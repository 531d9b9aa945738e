import ContractLowering.Proofs.IL.Check

/-!
# The scopes of the check

The check threads its `ScopeMap` through every expression. A refusal inside a binder comes after
its scope was entered, so the scope has to be left on that way out too: whatever an expression
answers, the map is afterwards what it was before (`Expr.check_same`), and no step on the way there
lacks an open scope (`CheckM.run_inScope`).
-/

namespace ContractLowering.IL

open CheckM ScopeMap

/-- What a check looks up in any signature is what some signature lists. -/
theorem Signature.exists_represents (σ : Signature) : ∃ sig, σ.Represents sig := by
  have hmem {β : Type} [DecidableEq β] (l : List (String × β)) (x : String) (b : β) :
      l.lookup x = some b ↔ (x, b) ∈ l.filter fun c => l.lookup c.1 == some c.2 := by
    simp only [List.mem_filter, beq_iff_eq, iff_and_self]
    intro h
    obtain ⟨before, after, rfl, _⟩ := List.lookup_eq_some_iff.1 h
    simp
  exact ⟨⟨σ.sorts, σ.names.filter _, σ.procs.filter _⟩, fun _ => .rfl, hmem σ.names, hmem σ.procs⟩

theorem CheckM.exists_lists (m : Scope) : ∃ Γ, Lists Γ m :=
  ⟨m.bindings.map Prod.fst, fun x => Signature.isSome_lookup_iff m.bindings x⟩

/-- A check that decides something leaves every map as it found it, whatever it answers. -/
theorem CheckM.same_of_decides {σ : Signature} {x : CheckM Unit}
    (h : ∀ {sig Γ}, σ.Represents sig → ∃ p, Decides σ Γ x p) (m : Scope) : Same (x σ m).2 m := by
  obtain ⟨sig, hσ⟩ := σ.exists_represents
  obtain ⟨Γ, hΓ⟩ := exists_lists m
  obtain ⟨p, hx⟩ := h hσ
  exact (hx m hΓ).2

theorem Expr.check_same (e : Expr) (σ : Signature) (m : Scope) : Same (e.check σ m).2 m :=
  same_of_decides (fun hσ => ⟨_, Expr.check_decides hσ e⟩) m

theorem Expr.checkAll_same (es : List Expr) (σ : Signature) (m : Scope) :
    Same (Expr.checkAll es σ m).2 m :=
  same_of_decides (fun hσ => ⟨_, Expr.checkAll_decides hσ es⟩) m

/-- Binding names in an open scope is a run of insertions. -/
theorem CheckM.run_bindNames (σ : Signature) {m outer : Scope} (h : Reverts m outer)
    (xs : List String) : ∃ answers inner, m.run (xs.map (.insert · ())) = some (answers, inner) ∧
      Reverts inner outer ∧ bindNames xs σ m = (.ok (), inner) := by
  induction xs generalizing m with
  | nil => exact ⟨[], m, rfl, h, rfl⟩
  | cons x xs ih =>
    obtain ⟨m', hins, _, hrev⟩ := h.insert x ()
    obtain ⟨answers, inner, hrun, hinner, hbind⟩ := ih hrev
    refine ⟨(m.get? x).isSome :: answers, inner, by simp [ScopeMap.run, hins, hrun], hinner, ?_⟩
    rw [← hbind]
    show (_, List.foldl _ _ _) = (_, List.foldl _ _ _)
    rw [List.foldl_cons, hins]
    rfl

/-- The scope of a check is entered, filled and left as a run on the map, which never lacks an
open scope. -/
theorem CheckM.run_inScope {x : CheckM Unit} {σ : Signature} (hx : ∀ m, Same (x σ m).2 m)
    (m : Scope) (xs : List String) : ∃ answers inner closed,
      m.run (.enter :: xs.map (.insert · ())) = some (answers, inner) ∧
        (x σ inner).2.leave? = some closed ∧ Same closed m ∧
        inScope (do bindNames xs; x) σ m = ((x σ inner).1, closed) := by
  obtain ⟨answers, inner, hrun, hrev, hbind⟩ := run_bindNames σ (reverts_enter m) xs
  obtain ⟨closed, hleave, hsame⟩ := hrev.of_same (hx inner)
  refine ⟨answers, inner, closed, hrun, hleave, hsame, ?_⟩
  rw [inScope, bind_run, hbind]
  exact congrArg (Prod.mk _) (by rw [hleave]; rfl)

/-- A scope map answers as the stack of its open scopes would, and a scope that is left restores
what was there when it was entered. So expressions are checked without a trace in the map: no name
of a binder outlives it, whether its parts are accepted or refused, and the scope of a binder is
open when its names are bound and when it is left. -/
theorem scopes_restored {κ ν : Type} [DecidableEq κ] :
    (∀ steps : List (Step κ ν),
      (ScopeMap.empty.run steps).map (fun r => (r.1, r.2.get?, r.2.depth)) =
        (ScopeStack.run [] steps).map fun r => (r.1, ScopeStack.get? r.2, r.2.length)) ∧
    (∀ (m : ScopeMap κ ν) (inner : List (Step κ ν)), opened 0 inner = some 0 →
      ∃ answers m', m.run (.enter :: inner ++ [.leave]) = some (answers, m') ∧ Same m' m) ∧
    ∀ (σ : Signature) (m : Scope), (∀ e : Expr, Same (e.check σ m).2 m) ∧
      (∀ es : List Expr, Same (Expr.checkAll es σ m).2 m) ∧
      ∀ (xs : List String) (triggers : List (List Expr)) (body : Expr),
        let parts : CheckM Unit := do
          Expr.checkTriggers triggers
          body.check
        ∃ answers inner closed,
          m.run (.enter :: xs.map (.insert · ())) = some (answers, inner) ∧
          (parts σ inner).2.leave? = some closed ∧ Same closed m ∧
          inScope (do bindNames xs; parts) σ m = ((parts σ inner).1, closed) := by
  refine ⟨fun steps => ?_, fun m _ => m.run_scope, fun σ m => ⟨fun e => e.check_same σ m,
    fun es => Expr.checkAll_same es σ m, fun xs triggers body => ?_⟩⟩
  · obtain ⟨hm, hs⟩ | ⟨answers, m, s, hm, hs, h⟩ := Holds.empty.run steps
    · rw [hm, hs]
      rfl
    · rw [hm, hs, Option.map_some, Option.map_some, h.get?, h.depth]
  · have hparts := fun {sig Γ} (hσ : σ.Represents sig) =>
      (Expr.checkTriggers_decides hσ (Γ := Γ) triggers).bind (Expr.check_decides hσ body)
    exact run_inScope (same_of_decides fun hσ => ⟨_, hparts hσ⟩) m xs

/-- A key bound outside and twice inside a scope, with another scope in between. -/
theorem scopes_restored_shadowed :
    let outer : Scope := ((ScopeMap.empty.enter.insert? "x" ()).map (·.2)).getD .empty
    let inner : List (Step String Unit) :=
      [.insert "x" (), .enter, .insert "y" (), .insert "x" (), .leave, .insert "x" ()]
    let refused : Expr := .quant .all [("x", .int)] [[.var "y"]] (.var "x")
    opened 0 inner = some 0 ∧
      (∃ answers m', outer.run (.enter :: inner ++ [.leave]) = some (answers, m') ∧
        Same m' outer) ∧
      (refused.check {} outer).1 = .error (.unknownVariable "y") ∧
      Same (refused.check {} outer).2 outer :=
  ⟨by decide, (scopes_restored (κ := String) (ν := Unit)).2.1 _ _ (by decide), by decide,
    ((scopes_restored (κ := String) (ν := Unit)).2.2 {} _).1 _⟩

end ContractLowering.IL
