import ContractLowering.Proofs.Lowering.Rank
import ContractLowering.Proofs.Prelude.Declared

/-!
# Models of the prelude

A model satisfies the standard prelude when every fact that is read from its text holds, with the
values that its constants have. Of these facts induction needs three, which are about ranks of
datatype values and about sequences (`ranked_of_prelude`).
-/

namespace ContractLowering

open IL

/-- That all facts of the standard prelude hold. -/
def IL.Model.OfPrelude {M : Model} (old ρ : M.Valuation) : Prop :=
  ∀ ⦃name e⦄, Prelude.Declares (.fact name e) → Holds old ρ e

/-- A model satisfies the standard prelude: its functions take values of their sorts to values of
their sorts, and all facts hold. -/
structure IL.Model.SatisfiesPrelude {M : Model} (old ρ : M.Valuation) : Prop where
  app : ∀ {f ss s as}, Prelude.Declares (.func f ss s) → List.Forall₂ M.carrier ss as →
    M.carrier s (M.app f as)
  facts : Model.OfPrelude old ρ

namespace Prelude

theorem ofSExpr_factTree {binders : List (String × String)} {body pattern : SExpr}
    {e p : IL.Expr} (hbinders : binders.all (fun b => isSymbol b.1 && isSymbol b.2) = true)
    (hbody : Expr.ofSExpr body = .ok e) (hpattern : Expr.ofSExpr pattern = .ok p) :
    Decl.ofSExpr (factTree binders body pattern) =
      .ok (.fact none (.quant .all (binders.map fun b => (b.1, .ofName b.2)) [[p]] e)) := by
  have hread : Binder.ofSExprs (binders.map fun b => .list [.atom b.1, .atom b.2]) =
      .ok (binders.map fun b => (b.1, .ofName b.2)) := by
    induction binders with
    | nil => rfl
    | cons b binders ih =>
      simp only [List.all_cons, Bool.and_eq_true] at hbinders
      have hrest := ih (by simpa using hbinders.2)
      simp only [Binder.ofSExprs] at hrest ⊢
      simp [Binder.ofSExpr, Srt.ofSExpr, hbinders.1.1, hbinders.1.2, hrest, Except.map]
      rfl
  simp [factTree, Decl.ofSExpr, Expr.ofSExpr, Expr.triggersOfSExprs,
    Expr.ofSExprs, hread, hbody, hpattern]
  rfl

variable {M : Model} {old ρ : M.Valuation}

/-- A fact about all values of some sorts, at values of these sorts. -/
theorem holds_fact (binders : List (String × String)) {body pattern : SExpr} {e p : IL.Expr}
    (h : Model.OfPrelude old ρ)
    (hbinders : binders.all (fun b => isSymbol b.1 && isSymbol b.2) = true)
    (hbody : Expr.ofSExpr body = .ok e) (hpattern : Expr.ofSExpr pattern = .ok p)
    (htree : factTree binders body pattern ∈ [rankTree, lengthTree, seqEqualTree])
    {σ : M.Valuation} (hσ : Model.Assigns (binders.map fun b => (b.1, .ofName b.2)) ρ σ) :
    Holds old σ e := by
  have hfact := h (declares_of_tree (ofSExpr_factTree hbinders hbody hpattern)
    (List.mem_append_left _ (List.mem_append_left _ htree)))
  rw [Holds, Expr.eval, M.truth_ofProp] at hfact
  exact hfact σ hσ

/-- A fact that says that a function of one sort is nowhere negative. -/
theorem nonneg_fact {f x sort : String} (h : Model.OfPrelude old ρ)
    (hbinder : (isSymbol x && isSymbol sort) = true)
    (hterm : Expr.ofSExpr (.list [.atom f, .atom x]) = .ok (.app f [.var x]))
    (htree : factTree [(x, sort)] (.list [.atom "<=", .atom "0", .list [.atom f, .atom x]])
      (.list [.atom f, .atom x]) ∈ [rankTree, lengthTree, seqEqualTree])
    {a : M.Val} (ha : M.carrier (.ofName sort) a) : 0 ≤ M.toInt (M.app f [a]) := by
  have hbody : Expr.ofSExpr (.list [.atom "<=", .atom "0", .list [.atom f, .atom x]]) =
      .ok (.le (.nat 0) (.app f [.var x])) := by
    simp [Expr.ofSExpr, Expr.ofSExprs, Expr.ofAtom, Expr.ofHead, BinOp.ofHead?, hterm]
    rfl
  have hσ : Model.Assigns [(x, .ofName sort)] ρ (Function.update ρ x a) :=
    Model.assigns_cons.2 ⟨a, ha, Model.assigns_nil.2 rfl⟩
  simpa using holds_fact [(x, sort)] h (by simpa using hbinder) hbody hterm htree hσ

/-- Ranks and lengths are not negative in a model of the prelude, and sequences that are the same
element by element are one. -/
theorem ranked_of_prelude (h : Model.OfPrelude old ρ) : M.Ranked where
  rank_nonneg d hd := by
    refine nonneg_fact (x := "d") h rfl ?_ (.head _) hd
    simp [Expr.ofSExpr, Expr.ofSExprs, Expr.ofAtom, Expr.ofHead, BinOp.ofHead?, MultiOp.ofHead?]
    rfl
  length_nonneg s hs := by
    refine nonneg_fact (x := "s") h rfl ?_ (.tail _ (.head _)) hs
    simp [Expr.ofSExpr, Expr.ofSExprs, Expr.ofAtom, Expr.ofHead, BinOp.ofHead?, MultiOp.ofHead?]
    rfl
  eq_of_equal s t hs ht hequal := by
    have hbody : Expr.ofSExpr (.list [.atom "=>",
        .list [.atom "Seq.Equal", .atom "s", .atom "t"], .list [.atom "=", .atom "s", .atom "t"]]) =
        .ok (.binary .implies (.app "Seq.Equal" [.var "s", .var "t"])
          (.eq (.var "s") (.var "t"))) := by
      simp [Expr.ofSExpr, Expr.ofSExprs, Expr.ofAtom, Expr.ofHead, BinOp.ofHead?, MultiOp.ofHead?]
      rfl
    have hpattern : Expr.ofSExpr (.list [.atom "Seq.Equal", .atom "s", .atom "t"]) =
        .ok (.app "Seq.Equal" [.var "s", .var "t"]) := by
      simp [Expr.ofSExpr, Expr.ofSExprs, Expr.ofAtom, Expr.ofHead, BinOp.ofHead?, MultiOp.ofHead?]
      rfl
    have hσ : Model.Assigns [("s", seqSort), ("t", seqSort)] ρ
        (Function.update (Function.update ρ "s" s) "t" t) :=
      Model.assigns_cons.2 ⟨s, hs, Model.assigns_cons.2 ⟨t, ht, Model.assigns_nil.2 rfl⟩⟩
    have hholds := holds_fact [("s", "Seq"), ("t", "Seq")] h rfl hbody hpattern
      (.tail _ (.tail _ (.head _))) hσ
    have himp := (holds_implies _ _).1 hholds (by simpa [Holds] using hequal)
    simpa using himp

end Prelude

end ContractLowering
