import ContractLowering.Proofs.IL.Alpha
import ContractLowering.Source.Expr

/-!
# Source expressions that differ in bound names

`Source.Alpha C e e'` says that `e` and `e'` are the same expression up to the names of bound
variables, where `C` relates the free names of `e` to those of `e'`. Types are the same, while
places in the source and what is said about induction do not count.
-/

namespace ContractLowering.Source

open IL (Consistent under)

/-- Bound variables with the same types, whose names repeat at the same places. -/
structure SameBinders (bs bs' : List Binder) : Prop where
  types : bs.map (·.2) = bs'.map (·.2)
  names : Consistent (bs.map (·.1)) (bs'.map (·.1))

/-- Which names correspond below bound variables. -/
abbrev below (bs bs' : List Binder) (C : String → String → Prop) : String → String → Prop :=
  under (bs.map (·.1)) (bs'.map (·.1)) C

/-- The same expression up to the names of bound variables, for a correspondence of free names. -/
inductive Alpha : (String → String → Prop) → Expr → Expr → Prop
  | bool {C i i' b} (ht : i'.typ = i.typ) : Alpha C (.bool i b) (.bool i' b)
  | int {C i i' n} (ht : i'.typ = i.typ) : Alpha C (.int i n) (.int i' n)
  | null {C i i'} (ht : i'.typ = i.typ) : Alpha C (.null i) (.null i')
  | var {C i i' x y} (ht : i'.typ = i.typ) (h : C x y) : Alpha C (.var i x) (.var i' y)
  | this {C i i'} (ht : i'.typ = i.typ) : Alpha C (.this i) (.this i')
  | field {C i i' e e' f} (ht : i'.typ = i.typ) (h : Alpha C e e') :
      Alpha C (.field i e f) (.field i' e' f)
  | index {C i i' a a' b b'} (ht : i'.typ = i.typ) (ha : Alpha C a a') (hb : Alpha C b b') :
      Alpha C (.index i a b) (.index i' a' b')
  | slice {C i i' e e' lo lo' hi hi'} (ht : i'.typ = i.typ) (h : Alpha C e e')
      (hlo : lo.isSome = lo'.isSome) (hlos : ∀ a ∈ lo, ∀ b ∈ lo', Alpha C a b)
      (hhi : hi.isSome = hi'.isSome) (hhis : ∀ a ∈ hi, ∀ b ∈ hi', Alpha C a b) :
      Alpha C (.slice i e lo hi) (.slice i' e' lo' hi')
  | update {C i i' a a' b b' c c'} (ht : i'.typ = i.typ) (ha : Alpha C a a') (hb : Alpha C b b')
      (hc : Alpha C c c') : Alpha C (.update i a b c) (.update i' a' b' c')
  | arrayLength {C i i' e e'} (ht : i'.typ = i.typ) (h : Alpha C e e') :
      Alpha C (.arrayLength i e) (.arrayLength i' e')
  | display {C i i' kind es es'} (ht : i'.typ = i.typ) (hlen : es.length = es'.length)
      (h : ∀ a b, (a, b) ∈ es.zip es' → Alpha C a b) :
      Alpha C (.display i kind es) (.display i' kind es')
  | mapDisplay {C i i'} {kvs kvs' : List (Expr × Expr)} (ht : i'.typ = i.typ)
      (hlen : kvs.length = kvs'.length) (hkeys : ∀ p q, (p, q) ∈ kvs.zip kvs' → Alpha C p.1 q.1)
      (hvalues : ∀ p q, (p, q) ∈ kvs.zip kvs' → Alpha C p.2 q.2) :
      Alpha C (.mapDisplay i kvs) (.mapDisplay i' kvs')
  | ctor {C i i' dt k es es'} (ht : i'.typ = i.typ) (hlen : es.length = es'.length)
      (h : ∀ a b, (a, b) ∈ es.zip es' → Alpha C a b) :
      Alpha C (.ctor i dt k es) (.ctor i' dt k es')
  | destruct {C i i' e e' dt k f} (ht : i'.typ = i.typ) (h : Alpha C e e') :
      Alpha C (.destruct i e dt k f) (.destruct i' e' dt k f)
  | isCtor {C i i' e e' dt k} (ht : i'.typ = i.typ) (h : Alpha C e e') :
      Alpha C (.isCtor i e dt k) (.isCtor i' e' dt k)
  | old {C i i' e e'} (ht : i'.typ = i.typ) (h : Alpha C e e') : Alpha C (.old i e) (.old i' e')
  | fresh {C i i' e e'} (ht : i'.typ = i.typ) (h : Alpha C e e') :
      Alpha C (.fresh i e) (.fresh i' e')
  | unary {C i i' op e e'} (ht : i'.typ = i.typ) (h : Alpha C e e') :
      Alpha C (.unary i op e) (.unary i' op e')
  | binary {C i i' op a a' b b'} (ht : i'.typ = i.typ) (ha : Alpha C a a') (hb : Alpha C b b') :
      Alpha C (.binary i op a b) (.binary i' op a' b')
  | quant {C i i' q bs bs' r r' e e' ts ts' ind ind'} (ht : i'.typ = i.typ)
      (hbs : SameBinders bs bs') (hr : r.isSome = r'.isSome)
      (hrs : ∀ a ∈ r, ∀ b ∈ r', Alpha (below bs bs' C) a b) (he : Alpha (below bs bs' C) e e')
      (hlen : ts.length = ts'.length)
      (hlens : ∀ t t', (t, t') ∈ ts.zip ts' → t.length = t'.length)
      (hts : ∀ t t', (t, t') ∈ ts.zip ts' → ∀ a b, (a, b) ∈ t.zip t' →
        Alpha (below bs bs' C) a b) :
      Alpha C (.quant i q bs r e ts ind) (.quant i' q bs' r' e' ts' ind')
  | setComp {C i i' bs bs' r r' t t'} (ht : i'.typ = i.typ) (hbs : SameBinders bs bs')
      (hr : Alpha (below bs bs' C) r r') (hterm : t.isSome = t'.isSome)
      (hterms : ∀ a ∈ t, ∀ b ∈ t', Alpha (below bs bs' C) a b) :
      Alpha C (.setComp i bs r t) (.setComp i' bs' r' t')
  | mapComp {C i i'} {b b' : Binder} {r r' t t'} (ht : i'.typ = i.typ) (hb : b'.2 = b.2)
      (hr : Alpha (below [b] [b'] C) r r') (hterm : Alpha (below [b] [b'] C) t t') :
      Alpha C (.mapComp i b r t) (.mapComp i' b' r' t')
  | letIn {C i i'} {us vs : List (String × Expr)} {e e'} (ht : i'.typ = i.typ)
      (hnames : Consistent (us.map (·.1)) (vs.map (·.1)))
      (hvalues : ∀ u v, (u, v) ∈ us.zip vs → Alpha C u.2 v.2)
      (he : Alpha (under (us.map (·.1)) (vs.map (·.1)) C) e e') :
      Alpha C (.letIn i us e) (.letIn i' vs e')
  | ite {C i i' a a' b b' c c'} (ht : i'.typ = i.typ) (ha : Alpha C a a') (hb : Alpha C b b')
      (hc : Alpha C c c') : Alpha C (.ite i a b c) (.ite i' a' b' c')
  | cases {C i i' e e'} {arms arms' : List (Pattern × Expr)} (ht : i'.typ = i.typ)
      (he : Alpha C e e') (hlen : arms.length = arms'.length)
      (hctor : ∀ p q, (p, q) ∈ arms.zip arms' → q.1.ctor = p.1.ctor)
      (hbs : ∀ p q, (p, q) ∈ arms.zip arms' → SameBinders p.1.binders q.1.binders)
      (h : ∀ p q, (p, q) ∈ arms.zip arms' →
        Alpha (below p.1.binders q.1.binders C) p.2 q.2) :
      Alpha C (.cases i e arms) (.cases i' e' arms')
  | call {C i i' f r r' es es'} (ht : i'.typ = i.typ) (hr : r.isSome = r'.isSome)
      (hrs : ∀ a ∈ r, ∀ b ∈ r', Alpha C a b) (hlen : es.length = es'.length)
      (h : ∀ a b, (a, b) ∈ es.zip es' → Alpha C a b) :
      Alpha C (.call i f r es) (.call i' f r' es')

/-- Two expressions are the same up to the names of bound variables. -/
def Expr.AlphaEq (e e' : Expr) : Prop := Alpha Eq e e'

/-- Expressions that differ in bound names have the same type. -/
theorem Alpha.typ_eq {C : String → String → Prop} {e e' : Expr} (h : Alpha C e e') :
    e'.typ = e.typ := by
  cases h <;> assumption

/-- Bound variables correspond one by one. -/
theorem SameBinders.forall₂ {bs bs' : List Binder} (h : SameBinders bs bs')
    (C : String → String → Prop) :
    List.Forall₂ (fun b b' => b'.2 = b.2 ∧ below bs bs' C b.1 b'.1) bs bs' := by
  have hlen : bs.length = bs'.length := by simpa using h.names.1
  refine List.forall₂_iff_zip.2 ⟨hlen, fun {b b'} hb => ⟨?_, .inl ?_⟩⟩
  · have htypes : List.Forall₂ Eq (bs.map (·.2)) (bs'.map (·.2)) := by
      rw [h.types]
      exact List.forall₂_same.2 fun _ _ => rfl
    rw [List.forall₂_map_left_iff, List.forall₂_map_right_iff] at htypes
    exact ((List.forall₂_iff_zip.1 htypes).2 hb).symm
  · rw [List.zip_map]
    exact List.mem_map.2 ⟨(b, b'), hb, rfl⟩

end ContractLowering.Source
