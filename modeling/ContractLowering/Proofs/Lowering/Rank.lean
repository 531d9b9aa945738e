import ContractLowering.Lowering.Induction
import ContractLowering.Proofs.IL.Semantics
import Mathlib.Order.WellFounded

/-!
# Ranks of induction variables

Induction is on numbers, values of datatypes and sequences. Each of them has a natural number for
its rank: itself, what the heap model calls the rank of a datatype value, its length. A tuple of
variables that the generated formula calls smaller has the smaller tuple of ranks in lexicographic
order (`lower_of_decreases`), and there is no infinite descent in that order (`Lower.wf`).
-/

namespace ContractLowering

open IL Source

variable {M : Model}

/-- What the facts about ranks and sequences say of a model. -/
structure IL.Model.Ranked (M : Model) : Prop where
  rank_nonneg : ∀ d, M.carrier Prelude.datatypeSort d → 0 ≤ M.toInt (M.app "DtRank" [d])
  length_nonneg : ∀ s, M.carrier Prelude.seqSort s → 0 ≤ M.toInt (M.app "Seq.Length" [s])
  eq_of_equal : ∀ s t, M.carrier Prelude.seqSort s → M.carrier Prelude.seqSort t →
    M.truth (M.app "Seq.Equal" [s, t]) → s = t

/-- The rank of a value of an inductive type. -/
def IL.Model.rank (M : Model) : Typ → M.Val → Nat
  | .nat, a => (M.toInt a).toNat
  | .datatype .., a => (M.toInt (M.app "DtRank" [a])).toNat
  | .seq _, a => (M.toInt (M.app "Seq.Length" [a])).toNat
  | _, _ => 0

/-- That variables have smaller ranks in one valuation than in another, in lexicographic order. -/
def Lower : List Source.Binder → M.Valuation → M.Valuation → Prop
  | [], _, _ => False
  | b :: bs, σ', σ =>
    M.rank b.2 (σ' b.1) < M.rank b.2 (σ b.1) ∨
      M.rank b.2 (σ' b.1) = M.rank b.2 (σ b.1) ∧ Lower bs σ' σ

/-- Ranks do not go down forever. -/
theorem Lower.wf (bs : List Source.Binder) : WellFounded (Lower (M := M) bs) := by
  induction bs with
  | nil => exact ⟨fun σ => ⟨σ, fun _ h => h.elim⟩⟩
  | cons b bs ih =>
    have hlex := InvImage.wf (fun σ : M.Valuation => (M.rank b.2 (σ b.1), σ))
      (wellFounded_lt.prod_lex ih)
    refine Subrelation.wf (fun {σ' σ} h => ?_) hlex
    rcases h with h | ⟨h, hrest⟩
    · exact .left _ _ h
    · show Prod.Lex _ _ (M.rank b.2 (σ' b.1), σ') (M.rank b.2 (σ b.1), σ)
      rw [h]
      exact .right _ hrest

/-- A value that an induction variable may have: of its sort, and not negative. -/
structure IL.Model.Inductive (M : Model) (t : Typ) (a : M.Val) : Prop where
  sort : M.carrier t.sort a
  nonneg : t = .nat → 0 ≤ M.toInt a

variable {old σ σ' τ : M.Valuation} {t : Typ} {a b : M.Val} {x y : String}

/-- A component that is less has the smaller rank. -/
theorem rank_lt_of_less {o : Termination.Order} (hM : M.Ranked) (ht : t.isInductive = true)
    (ho : Termination.order? ⟨t, .var x, false⟩ = some o) (hy : M.Inductive t (τ y))
    (h : Holds old τ (Termination.less o (.var x) (.var y))) :
    M.rank t (τ y) < M.rank t (τ x) := by
  cases t with
  | nat =>
    obtain rfl : Termination.Order.int = o := Option.some.inj ho
    have hlt : M.toInt (τ y) < M.toInt (τ x) := by simpa [Termination.less] using h
    have hpos := hy.nonneg rfl
    simp only [Model.rank]
    omega
  | datatype p args =>
    obtain rfl : Termination.Order.datatype = o := Option.some.inj ho
    have hlt : M.toInt (M.app "DtRank" [τ y]) < M.toInt (M.app "DtRank" [τ x]) := by
      simpa [Termination.less, Prelude.dtRank] using h
    have hpos := hM.rank_nonneg _ hy.sort
    simp only [Model.rank]
    omega
  | seq t =>
    obtain rfl : Termination.Order.seq = o := Option.some.inj ho
    have hlt : M.toInt (M.app "Seq.Length" [τ y]) < M.toInt (M.app "Seq.Length" [τ x]) := by
      simpa [Termination.less, Prelude.seqLength] using h
    have hpos := hM.length_nonneg _ hy.sort
    simp only [Model.rank]
    omega
  | _ => simp [Typ.isInductive] at ht

/-- A component that is unchanged has the same rank. -/
theorem rank_eq_of_unchanged (hM : M.Ranked) (ht : t.isInductive = true)
    (hx : M.Inductive t (τ x)) (hy : M.Inductive t (τ y))
    (h : Holds old τ (Termination.unchanged ⟨t, .var x, false⟩ ⟨t, .var y, false⟩)) :
    M.rank t (τ y) = M.rank t (τ x) := by
  cases t with
  | nat =>
    have heq : τ y = τ x := by simpa [Termination.unchanged, typedEq] using h
    rw [heq]
  | datatype p args =>
    have heq : τ y = τ x := by simpa [Termination.unchanged, typedEq] using h
    rw [heq]
  | seq t =>
    have hequal : M.truth (M.app "Seq.Equal" [τ y, τ x]) := by
      simpa [Termination.unchanged, typedEq, Prelude.seqEqual, Holds] using h
    rw [hM.eq_of_equal _ _ hy.sort hx.sort hequal]
  | _ => simp [Typ.isInductive] at ht

/-- Variables that the generated formula calls smaller have smaller ranks. The valuation of the
formula gives a variable its value and the copy the smaller one. -/
theorem lower_of_decreases {n : Nat} {vars : List Source.Binder} (hM : M.Ranked)
    (hvars : ∀ b ∈ vars, b.2.isInductive = true)
    (hold : ∀ b ∈ vars, τ b.1 = σ b.1 ∧ M.Inductive b.2 (σ b.1))
    (hnew : ∀ b ∈ vars, τ (Naming.renamed b.1 n) = σ' b.1 ∧ M.Inductive b.2 (σ' b.1))
    (h : Holds old τ (Termination.decreases false (Induction.varValues vars)
      (Induction.varValues (Induction.renamed n vars)))) : Lower vars σ' σ := by
  induction vars with
  | nil => simp [Induction.varValues, Induction.renamed, Termination.decreases] at h
  | cons b vars ih =>
    have hb := hvars b (by simp)
    obtain ⟨hx, hx'⟩ := hold b (by simp)
    obtain ⟨hy, hy'⟩ := hnew b (by simp)
    obtain ⟨o, ho⟩ : ∃ o, Termination.order? ⟨b.2, .var b.1, false⟩ = some o := by
      revert hb
      cases b.2 <;> simp [Typ.isInductive, Termination.order?]
    have ho' : Termination.order? ⟨b.2, .var (Naming.renamed b.1 n), false⟩ = some o := ho
    have hcommon : Termination.commonOrder? ⟨b.2, .var b.1, false⟩
        ⟨b.2, .var (Naming.renamed b.1 n), false⟩ = some o := by
      simp [Termination.commonOrder?, ho, ho']
    simp only [Induction.varValues, Induction.renamed, List.map_cons, Termination.decreases,
      hcommon, holds_disj, List.mem_cons, List.not_mem_nil, or_false, exists_eq_or_imp,
      exists_eq_left, holds_conj, forall_eq_or_imp, forall_eq] at h
    rw [← hx] at hx'
    rw [← hy] at hy'
    rcases h with h | ⟨h, hrest⟩
    · have hlt := rank_lt_of_less hM hb ho hy' h
      exact .inl (by rwa [hx, hy] at hlt)
    · have heq := rank_eq_of_unchanged hM hb hx' hy' h
      refine .inr ⟨by rwa [hx, hy] at heq, ih (fun c hc => hvars c (by simp [hc]))
        (fun c hc => hold c (by simp [hc])) (fun c hc => hnew c (by simp [hc])) hrest⟩

end ContractLowering
