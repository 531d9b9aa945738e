import ContractLowering.Proofs.IL.LoopCut

/-!
# Executions of code without control flow

How an execution to the end of code begins, statement by statement, and what is known of all states
that it passes (`Trace.Passes`).
-/

namespace ContractLowering.IL

variable {M : Model} {procs : List Procedure} {old ρ ρ' σ : M.Valuation} {ss ts : List Stmt}
  {tr tr' : Trace M} {k : Ending M}

/-! ## The states of an execution -/

/-- All states that an execution leads to have a property. -/
def Trace.Passes (P : M.Valuation → Prop) (tr : Trace M) : Prop :=
  ∀ s σ, .changed s σ ∈ tr → P σ

namespace Trace

variable {P Q : M.Valuation → Prop}

theorem passes_append : Passes P (tr ++ tr') ↔ Passes P tr ∧ Passes P tr' := by
  simp only [Passes, List.mem_append, or_imp, forall_and]

theorem passes_changed {s : Stmt} (h : Passes P (.changed s σ :: tr)) : P σ ∧ Passes P tr :=
  ⟨h s σ List.mem_cons_self, fun t τ ht => h t τ (List.mem_cons_of_mem _ ht)⟩

theorem Passes.imp (hPQ : ∀ σ, P σ → Q σ) (h : Passes P tr) : Passes Q tr :=
  fun s σ hs => hPQ σ (h s σ hs)

theorem proper_assumed {e : Expr} (h : Proper (.assumed old ρ e :: tr)) :
    Holds old ρ e ∧ Proper tr :=
  ⟨h old ρ e List.mem_cons_self, fun o σ d hd => h o σ d (List.mem_cons_of_mem _ hd)⟩

theorem proper_changed {s : Stmt} (h : Proper (.changed s σ :: tr)) : Proper tr :=
  fun o τ d hd => h o τ d (List.mem_cons_of_mem _ hd)

end Trace

theorem Stmt.Steps.passes {P : M.Valuation → Prop} {s : Stmt} (h : s.Steps procs old ρ tr σ)
    (hρ : P ρ) (hP : tr.Passes P) : P σ := by
  cases h with
  | assume | assert => exact hρ
  | havoc x a => exact hP _ _ (List.mem_singleton_self _)
  | assign x e => exact hP _ _ (List.mem_singleton_self _)
  | call hp args outs hsame => exact hP _ _ (List.mem_append_right _ List.mem_cons_self)

/-- What all states of an execution have the last one has. -/
theorem Exec.passes {P : M.Valuation → Prop} (h : Exec procs old ss ρ tr k) (hρ : P ρ)
    (hP : tr.Passes P) : P k.state := by
  induction h with
  | cut | nil | leave | ret => exact hρ
  | step h _ ih => 
    obtain ⟨hfirst, hrest⟩ := Trace.passes_append.1 hP
    exact ih (h.passes hρ hfirst) hrest
  | through _ _ _ ih ihs | leftIt _ _ _ _ ih ihs =>
    obtain ⟨hfirst, hrest⟩ := Trace.passes_append.1 hP
    exact ihs (ih hρ hfirst) hrest
  | escape _ _ _ ih => exact ih hρ hP

/-! ## First statements -/

/-- A statement without control flow takes one step. -/
theorem Exec.first {s : Stmt} (h : Exec procs old (s :: ss) ρ tr (.done σ))
    (hs : ∀ {ts rest}, ¬ s.Opens procs ts rest) :
    ∃ tr₁ tr₂ ρ', s.Steps procs old ρ tr₁ ρ' ∧ Exec procs old ss ρ' tr₂ (.done σ) ∧
      tr = tr₁ ++ tr₂ := by
  cases h with
  | step hstep hrest => exact ⟨_, _, _, hstep, hrest, rfl⟩
  | through ho | leftIt ho | escape ho => exact (hs ho).elim

theorem Exec.of_assign {x : String} {e : Expr}
    (h : Exec procs old (.assign x e :: ss) ρ tr (.done σ)) :
    ∃ tr', Exec procs old ss (Function.update ρ x (e.eval old ρ)) tr' (.done σ) ∧
      tr = .changed (.assign x e) (Function.update ρ x (e.eval old ρ)) :: tr' := by
  obtain ⟨tr₁, tr₂, ρ', hstep, hrest, rfl⟩ := h.first fun ho => by cases ho
  cases hstep
  exact ⟨tr₂, hrest, rfl⟩

theorem Exec.of_havoc {x : String} (h : Exec procs old (.havoc x :: ss) ρ tr (.done σ)) :
    ∃ a tr', Exec procs old ss (Function.update ρ x a) tr' (.done σ) ∧
      tr = .changed (.havoc x) (Function.update ρ x a) :: tr' := by
  obtain ⟨tr₁, tr₂, ρ', hstep, hrest, rfl⟩ := h.first fun ho => by cases ho
  cases hstep
  exact ⟨_, tr₂, hrest, rfl⟩

theorem Exec.of_assume {e : Expr} (h : Exec procs old (.assume e :: ss) ρ tr (.done σ)) :
    ∃ tr', Exec procs old ss ρ tr' (.done σ) ∧ tr = .assumed old ρ e :: tr' := by
  obtain ⟨tr₁, tr₂, ρ', hstep, hrest, rfl⟩ := h.first fun ho => by cases ho
  cases hstep
  exact ⟨tr₂, hrest, rfl⟩

theorem Exec.of_assert {m : Message} {e : Expr}
    (h : Exec procs old (.assert m e :: ss) ρ tr (.done σ)) :
    ∃ tr', Exec procs old ss ρ tr' (.done σ) ∧ tr = .asserted old ρ e :: tr' := by
  obtain ⟨tr₁, tr₂, ρ', hstep, hrest, rfl⟩ := h.first fun ho => by cases ho
  cases hstep
  exact ⟨tr₂, hrest, rfl⟩

theorem Exec.of_nil (h : Exec procs old [] ρ tr (.done σ)) : σ = ρ ∧ tr = [] := by
  cases h
  exact ⟨rfl, rfl⟩

/-- Assertions change nothing, and hold if none is violated. -/
theorem Exec.of_asserts (hss : ∀ t ∈ ss, ∃ m e, t = .assert m e)
    (h : Exec procs old ss ρ tr (.done σ)) (hsafe : tr.Safe) :
    σ = ρ ∧ ∀ e ∈ Stmt.asserted ss, Holds old ρ e := by
  induction ss generalizing tr with
  | nil => exact ⟨h.of_nil.1, by simp⟩
  | cons t ss ih =>
    obtain ⟨⟨m, e, rfl⟩, hrest⟩ := List.forall_mem_cons.1 hss
    obtain ⟨tr', hexec, rfl⟩ := h.of_assert
    obtain ⟨hσ, hholds⟩ := ih hrest hexec fun o τ d hd => hsafe o τ d (List.mem_cons_of_mem _ hd)
    refine ⟨hσ, fun d hd => ?_⟩
    rcases List.mem_cons.1 hd with rfl | hd
    · exact hsafe old ρ _ List.mem_cons_self
    · exact hholds d hd

end ContractLowering.IL
