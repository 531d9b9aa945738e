import ContractLowering.Proofs.Lowering.Scope

/-!
# Lowering well-typed expressions

A well-typed expression is lowered to an expression of the sort of its type (`lowerExpr_sorted`).
Every operator is chosen by the types of its operands, and every value is converted to the
representation that the type it meets asks for.
-/

namespace ContractLowering

open IL Source

section

variable {Δ : Vocabulary} {env : Env} {v : View} {hasThis : Bool} {Γ : Typing} {G : Sorts}

/-! ## Operators -/

variable {a b : IL.Expr} {t t₁ t₂ : Typ}

theorem sort?_typedEq (hΔ : Δ.Operations) (ha : a.sort? Δ G = some t.sort)
    (hb : b.sort? Δ G = some t.sort) : (typedEq t a b).sort? Δ G = some .bool := by
  cases t with
  | set => exact Expr.sort?_app hΔ.setEqual (.cons ha (.cons hb .nil))
  | multiset => exact Expr.sort?_app hΔ.multisetEqual (.cons ha (.cons hb .nil))
  | seq => exact Expr.sort?_app hΔ.seqEqual (.cons ha (.cons hb .nil))
  | map => exact Expr.sort?_app hΔ.mapEqual (.cons ha (.cons hb .nil))
  | _ => exact Expr.sort?_eq ha hb

theorem sort?_seqStarts (hΔ : Δ.Operations) (proper : Bool)
    (ha : a.sort? Δ G = some Prelude.seqSort) (hb : b.sort? Δ G = some Prelude.seqSort) :
    (seqStarts proper a b).sort? Δ G = some .bool := by
  have hla : (Prelude.seqLength a).sort? Δ G = some .int :=
    Expr.sort?_app hΔ.seqLength (.cons ha .nil)
  have hlb : (Prelude.seqLength b).sort? Δ G = some .int :=
    Expr.sort?_app hΔ.seqLength (.cons hb .nil)
  have hsame : (Prelude.seqSameUntil a b (Prelude.seqLength a)).sort? Δ G = some .bool :=
    Expr.sort?_app hΔ.seqSameUntil (.cons ha (.cons hb (.cons hla .nil)))
  refine Expr.sort?_conj₂ ?_ hsame
  split
  · exact Expr.sort?_lt hla hlb
  · exact Expr.sort?_le hla hlb

variable (env) in
theorem collectionBelow_sorted (hΔ : Δ.Operations) (proper : Bool) (ht : t.isCollection = true) :
    ∃ e, (collectionBelow proper t a b).Returns env e ∧
      ∀ G, a.sort? Δ G = some t.sort → b.sort? Δ G = some t.sort →
        e.sort? Δ G = some .bool := by
  cases t <;> simp only [Typ.isCollection, Bool.false_eq_true] at ht
  case set =>
    refine ⟨_, rfl, fun G ha hb => ?_⟩
    have hle : (Prelude.setSubset a b).sort? Δ G = some .bool :=
      Expr.sort?_app hΔ.setSubset (.cons ha (.cons hb .nil))
    have heq : (Prelude.setEqual a b).sort? Δ G = some .bool :=
      Expr.sort?_app hΔ.setEqual (.cons ha (.cons hb .nil))
    cases proper
    · exact hle
    · exact Expr.sort?_conj₂ hle (Expr.sort?_neg heq)
  case multiset =>
    refine ⟨_, rfl, fun G ha hb => ?_⟩
    have hle : (Prelude.multisetSubset a b).sort? Δ G = some .bool :=
      Expr.sort?_app hΔ.multisetSubset (.cons ha (.cons hb .nil))
    have heq : (Prelude.multisetEqual a b).sort? Δ G = some .bool :=
      Expr.sort?_app hΔ.multisetEqual (.cons ha (.cons hb .nil))
    cases proper
    · exact hle
    · exact Expr.sort?_conj₂ hle (Expr.sort?_neg heq)
  case seq => exact ⟨_, rfl, fun G ha hb => sort?_seqStarts hΔ proper ha hb⟩

variable (env) in
theorem lowerMem_sorted (hΔ : Δ.Operations) {elem : Typ} (ht : t.member? = some elem) :
    ∃ e, (lowerMem t a b).Returns env e ∧
      ∀ G, a.sort? Δ G = some t.sort → b.sort? Δ G = some Prelude.boxSort →
        e.sort? Δ G = some .bool := by
  cases t <;> simp only [Typ.member?, reduceCtorEq] at ht
  case set => exact ⟨_, rfl, fun G ha hb => Expr.sort?_app hΔ.setMem (.cons ha (.cons hb .nil))⟩
  case multiset =>
    refine ⟨_, rfl, fun G ha hb => Expr.sort?_lt (Expr.sort?_nat 0) ?_⟩
    exact Expr.sort?_app hΔ.multiplicity (.cons ha (.cons hb .nil))
  case seq =>
    exact ⟨_, rfl, fun G ha hb => Expr.sort?_app hΔ.seqContains (.cons ha (.cons hb .nil))⟩
  case map =>
    refine ⟨_, rfl, fun G ha hb => ?_⟩
    have hdomain : (Prelude.mapDomain a).sort? Δ G = some Prelude.setSort :=
      Expr.sort?_app hΔ.mapDomain (.cons ha .nil)
    exact Expr.sort?_app hΔ.setMem (.cons hdomain (.cons hb .nil))

variable (env) in
/-- The operator of sums, differences and products for one of the source. -/
theorem lowerArith_sorted (hΔ : Δ.Operations) {op : Source.BinOp} {op' : MultiOp}
    (hop : (op = .add ∧ op' = .add) ∨ (op = .sub ∧ op' = .sub) ∨ (op = .mul ∧ op' = .mul))
    (ht : op.IsArith t) :
    ∃ e, (lowerArith op' t a b).Returns env e ∧
      ∀ G, a.sort? Δ G = some t.sort → b.sort? Δ G = some t.sort →
        e.sort? Δ G = some t.sort := by
  have hint : ∀ G, a.sort? Δ G = some .int → b.sort? Δ G = some .int →
      (IL.Expr.multi op' [a, b]).sort? Δ G = some .int := by
    intro G ha hb
    rcases hop with ⟨-, rfl⟩ | ⟨-, rfl⟩ | ⟨-, rfl⟩ <;>
      exact Expr.sort?_multi rfl (.cons ha (.cons hb .nil))
  cases t <;> simp only [Source.BinOp.IsArith] at ht
  case int => exact ⟨_, rfl, fun G ha hb => hint G ha hb⟩
  case nat => exact ⟨_, rfl, fun G ha hb => hint G ha hb⟩
  case set =>
    rcases hop with ⟨-, rfl⟩ | ⟨-, rfl⟩ | ⟨-, rfl⟩
    · exact ⟨_, rfl, fun G ha hb => Expr.sort?_app hΔ.setUnion (.cons ha (.cons hb .nil))⟩
    · exact ⟨_, rfl, fun G ha hb => Expr.sort?_app hΔ.setDifference (.cons ha (.cons hb .nil))⟩
    · exact ⟨_, rfl, fun G ha hb => Expr.sort?_app hΔ.setIntersection (.cons ha (.cons hb .nil))⟩
  case multiset =>
    rcases hop with ⟨-, rfl⟩ | ⟨-, rfl⟩ | ⟨-, rfl⟩
    · exact ⟨_, rfl, fun G ha hb => Expr.sort?_app hΔ.multisetUnion (.cons ha (.cons hb .nil))⟩
    · exact ⟨_, rfl, fun G ha hb => Expr.sort?_app hΔ.multisetDifference (.cons ha (.cons hb .nil))⟩
    · exact ⟨_, rfl, fun G ha hb =>
        Expr.sort?_app hΔ.multisetIntersection (.cons ha (.cons hb .nil))⟩
  case seq =>
    rcases hop with ⟨-, rfl⟩ | ⟨rfl, -⟩ | ⟨rfl, -⟩
    · exact ⟨_, rfl, fun G ha hb => Expr.sort?_app hΔ.seqAppend (.cons ha (.cons hb .nil))⟩
    · cases ht
    · cases ht

variable (env) in
theorem lowerCompare_sorted (hΔ : Δ.Operations) {op : IL.BinOp}
    (hop : op ∈ [IL.BinOp.lt, .le, .gt, .ge]) (proper swapped : Bool)
    (ht : t.isCollection = true ∨ t.sort = .int) :
    ∃ e, (lowerCompare op proper swapped t a b).Returns env e ∧
      ∀ G, a.sort? Δ G = some t.sort → b.sort? Δ G = some t.sort →
        e.sort? Δ G = some .bool := by
  unfold lowerCompare
  split
  · rename_i hcoll
    split
    · obtain ⟨e, he, hsorted⟩ :=
        collectionBelow_sorted env (a := b) (b := a) hΔ proper hcoll
      exact ⟨e, he, fun G ha hb => hsorted G hb ha⟩
    · exact collectionBelow_sorted env hΔ proper hcoll
  · rename_i hcoll
    have hint : t.sort = .int := ht.resolve_left hcoll
    refine ⟨_, rfl, fun G ha hb => ?_⟩
    rw [hint] at ha hb
    simp only [List.mem_cons, List.not_mem_nil, or_false] at hop
    rcases hop with rfl | rfl | rfl | rfl <;> exact Expr.sort?_binary rfl ha hb

variable (env) in
/-- An operator gives a value of its type. -/
theorem lowerBinary_sorted (hΔ : Δ.Operations) {op : Source.BinOp} (hop : op.Accepts t₁ t₂ t) :
    ∃ e, (lowerBinary op t₁ t₂ a b).Returns env e ∧
      ∀ G, a.sort? Δ G = some t₁.sort → b.sort? Δ G = some t₂.sort →
        e.sort? Δ G = some t.sort := by
  cases op
  case and =>
    obtain ⟨h₁, h₂, h⟩ := hop
    exact ⟨_, rfl, fun G ha hb => h ▸ Expr.sort?_conj₂ (h₁ ▸ ha) (h₂ ▸ hb)⟩
  case or =>
    obtain ⟨h₁, h₂, h⟩ := hop
    exact ⟨_, rfl, fun G ha hb => h ▸ Expr.sort?_disj₂ (h₁ ▸ ha) (h₂ ▸ hb)⟩
  case implies =>
    obtain ⟨h₁, h₂, h⟩ := hop
    exact ⟨_, rfl, fun G ha hb => h ▸ Expr.sort?_imp (h₁ ▸ ha) (h₂ ▸ hb)⟩
  case iff =>
    obtain ⟨h₁, h₂, h⟩ := hop
    exact ⟨_, rfl, fun G ha hb => h ▸ Expr.sort?_eq (h₁ ▸ ha) (h₂ ▸ hb)⟩
  case eq =>
    obtain ⟨hfit, h⟩ := hop
    exact ⟨_, rfl, fun G ha hb => h ▸ sort?_typedEq hΔ ha (Boxing.sort?_convert hΔ hfit hb)⟩
  case ne =>
    obtain ⟨hfit, h⟩ := hop
    exact ⟨_, rfl, fun G ha hb =>
      h ▸ Expr.sort?_neg (sort?_typedEq hΔ ha (Boxing.sort?_convert hΔ hfit hb))⟩
  case lt =>
    obtain ⟨ht, h₂, h⟩ := hop
    simpa only [lowerBinary, h, h₂] using lowerCompare_sorted env hΔ (by simp) true false ht
  case le =>
    obtain ⟨ht, h₂, h⟩ := hop
    simpa only [lowerBinary, h, h₂] using lowerCompare_sorted env hΔ (by simp) false false ht
  case gt =>
    obtain ⟨ht, h₂, h⟩ := hop
    simpa only [lowerBinary, h, h₂] using lowerCompare_sorted env hΔ (by simp) true true ht
  case ge =>
    obtain ⟨ht, h₂, h⟩ := hop
    simpa only [lowerBinary, h, h₂] using lowerCompare_sorted env hΔ (by simp) false true ht
  case add =>
    obtain ⟨ht, h₂, h⟩ := hop
    simpa only [lowerBinary, h, h₂] using lowerArith_sorted env hΔ (.inl ⟨rfl, rfl⟩) ht
  case sub =>
    obtain ⟨ht, h₂, h⟩ := hop
    simpa only [lowerBinary, h, h₂] using lowerArith_sorted env hΔ (.inr (.inl ⟨rfl, rfl⟩)) ht
  case mul =>
    obtain ⟨ht, h₂, h⟩ := hop
    simpa only [lowerBinary, h, h₂] using lowerArith_sorted env hΔ (.inr (.inr ⟨rfl, rfl⟩)) ht
  case div =>
    obtain ⟨h₁, h₂, h⟩ := hop
    exact ⟨_, rfl, fun G ha hb => h ▸ Expr.sort?_binary rfl (h₁ ▸ ha) (h₂ ▸ hb)⟩
  case mod =>
    obtain ⟨h₁, h₂, h⟩ := hop
    exact ⟨_, rfl, fun G ha hb => h ▸ Expr.sort?_binary rfl (h₁ ▸ ha) (h₂ ▸ hb)⟩
  case mem =>
    obtain ⟨⟨elem, helem, -⟩, h⟩ := hop
    obtain ⟨e, he, hsorted⟩ := lowerMem_sorted env (a := b) (b := Boxing.box t₁ a) hΔ helem
    exact ⟨e, he, fun G ha hb => h ▸ hsorted G hb (Boxing.sort?_box hΔ ha)⟩
  case notMem =>
    obtain ⟨⟨elem, helem, -⟩, h⟩ := hop
    obtain ⟨e, he, hsorted⟩ := lowerMem_sorted env (a := b) (b := Boxing.box t₁ a) hΔ helem
    refine ⟨e.neg, ?_, fun G ha hb => h ▸ Expr.sort?_neg (hsorted G hb (Boxing.sort?_box hΔ ha))⟩
    simp only [lowerBinary, ExprM.returns_bind, ExprM.returns_pure]
    exact ⟨e, he, rfl⟩
  case disjoint =>
    obtain ⟨⟨elem, rfl | rfl⟩, h₂, h⟩ := hop
    · exact ⟨_, rfl, fun G ha hb =>
        h ▸ Expr.sort?_app hΔ.setDisjoint (.cons ha (.cons (hb.trans (congrArg some h₂)) .nil))⟩
    · exact ⟨_, rfl, fun G ha hb =>
        h ▸ Expr.sort?_app hΔ.multisetDisjoint
          (.cons ha (.cons (hb.trans (congrArg some h₂)) .nil))⟩

/-! ## Collections -/

variable {c i x : IL.Expr} {coll idx value result elem : Typ}

theorem sort?_readArray (hΔ : Δ.Operations) (hG : Ground Δ v.heap G)
    (hc : c.sort? Δ G = some Prelude.refSort) (hi : i.sort? Δ G = some .int) :
    (Heap.readArray v.heap c i).sort? Δ G = some Prelude.boxSort := by
  have hfield : (Prelude.indexField i).sort? Δ G = some Prelude.fieldSort :=
    Expr.sort?_app hΔ.indexField (.cons hi .nil)
  exact Expr.sort?_app hΔ.read (.cons hG.heap (.cons hc (.cons hfield .nil)))

variable (env v) in
theorem lowerIndex_sorted (hΔ : Δ.Operations) (htyp : coll.Indexes idx result) :
    ∃ e, (lowerIndex v coll idx result c i).Returns env e ∧
      ∀ G, Ground Δ v.heap G → c.sort? Δ G = some coll.sort → i.sort? Δ G = some idx.sort →
        e.sort? Δ G = some result.sort := by
  cases coll <;> simp only [Typ.Indexes] at htyp
  case seq elem =>
    refine ⟨_, rfl, fun G _ hc hi => Boxing.sort?_convert hΔ htyp.2 (Boxing.sort?_unbox hΔ elem ?_)⟩
    exact Expr.sort?_app hΔ.seqIndex (.cons hc (.cons (htyp.1 ▸ hi) .nil))
  case array elem =>
    refine ⟨_, rfl, fun G hG hc hi =>
      Boxing.sort?_convert hΔ htyp.2 (Boxing.sort?_unbox hΔ elem ?_)⟩
    exact sort?_readArray hΔ hG hc (htyp.1 ▸ hi)
  case map key value =>
    refine ⟨_, rfl, fun G _ hc hi =>
      Boxing.sort?_convert hΔ htyp.2 (Boxing.sort?_unbox hΔ value ?_)⟩
    have hkey := Boxing.sort?_box hΔ (Boxing.sort?_convert hΔ htyp.1 hi)
    exact Expr.sort?_app hΔ.mapElements (.cons hc (.cons hkey .nil))
  case multiset elem =>
    refine ⟨_, rfl, fun G _ hc hi => htyp.2 ▸ ?_⟩
    have hbox : (Boxing.box elem i).sort? Δ G = some Prelude.boxSort :=
      Boxing.sort?_box hΔ (htyp.1 ▸ hi)
    exact Expr.sort?_app hΔ.multiplicity (.cons hc (.cons hbox .nil))

variable (env) in
theorem lowerUpdate_sorted (hΔ : Δ.Operations) (htyp : coll.Updates idx value) :
    ∃ e, (lowerUpdate coll value c i x).Returns env e ∧
      ∀ G, c.sort? Δ G = some coll.sort → i.sort? Δ G = some idx.sort →
        x.sort? Δ G = some value.sort → e.sort? Δ G = some coll.sort := by
  cases coll <;> simp only [Typ.Updates] at htyp
  case seq elem =>
    refine ⟨_, rfl, fun G hc hi hx => ?_⟩
    have hbox := Boxing.sort?_box hΔ (Boxing.sort?_convert hΔ htyp.2 hx)
    exact Expr.sort?_app hΔ.seqUpdate (.cons hc (.cons (htyp.1 ▸ hi) (.cons hbox .nil)))
  case map key mapped =>
    refine ⟨_, rfl, fun G hc hi hx => ?_⟩
    have hkey : (Boxing.box key i).sort? Δ G = some Prelude.boxSort :=
      Boxing.sort?_box hΔ (htyp.1 ▸ hi)
    have hbox := Boxing.sort?_box hΔ (Boxing.sort?_convert hΔ htyp.2 hx)
    exact Expr.sort?_app hΔ.mapBuild (.cons hc (.cons hkey (.cons hbox .nil)))

variable (env) in
theorem lowerCard_sorted (hΔ : Δ.Operations) (ht : t.member?.isSome) :
    ∃ size, (lowerCard t).Returns env size ∧
      ∀ {G c}, c.sort? Δ G = some t.sort → (size c).sort? Δ G = some .int := by
  cases t <;> simp only [Typ.member?, Option.isSome_none, Bool.false_eq_true] at ht
  case set => exact ⟨_, rfl, fun hc => Expr.sort?_app hΔ.setCard (.cons hc .nil)⟩
  case multiset => exact ⟨_, rfl, fun hc => Expr.sort?_app hΔ.multisetCard (.cons hc .nil)⟩
  case seq => exact ⟨_, rfl, fun hc => Expr.sort?_app hΔ.seqLength (.cons hc .nil)⟩
  case map => exact ⟨_, rfl, fun hc => Expr.sort?_app hΔ.mapCard (.cons hc .nil)⟩

theorem sort?_seqSlice (hΔ : Δ.Operations) {lo hi : Option IL.Expr}
    (hc : c.sort? Δ G = some Prelude.seqSort) (hlo : ∀ e ∈ lo, e.sort? Δ G = some .int)
    (hhi : ∀ e ∈ hi, e.sort? Δ G = some .int) :
    (seqSlice c lo hi).sort? Δ G = some Prelude.seqSort := by
  have hdrop : ∀ {l}, l.sort? Δ G = some .int →
      (Prelude.seqDrop c l).sort? Δ G = some Prelude.seqSort :=
    fun hl => Expr.sort?_app hΔ.seqDrop (.cons hc (.cons hl .nil))
  cases lo with
  | none =>
    cases hi with
    | none => exact hc
    | some h => exact Expr.sort?_app hΔ.seqTake (.cons hc (.cons (hhi h rfl) .nil))
  | some l =>
    cases hi with
    | none => exact hdrop (hlo l rfl)
    | some h =>
      have hlength := Expr.sort?_sub (hhi h rfl) (hlo l rfl)
      exact Expr.sort?_app hΔ.seqTake (.cons (hdrop (hlo l rfl)) (.cons hlength .nil))

/-- That values are fresh is Boolean. -/
theorem sort?_lowerFresh (hS : Signed Δ env) (hG : Scope Δ env v hasThis Γ G) (ht : t.IsFrame)
    (hc : ∀ G, Scope Δ env v hasThis Γ G → c.sort? Δ G = some t.sort) :
    (lowerFresh v t c).sort? Δ G = some .bool := by
  have hΔ := hS.covers.operations
  have hscope := hG.update hS .box (some Prelude.boxSort)
  have hbox : (IL.Expr.var Naming.boxVar).sort? Δ
      (Function.update G Naming.boxVar (some Prelude.boxSort)) = some Prelude.boxSort :=
    Function.update_self ..
  have hobj : (Boxing.unboxRef (.var Naming.boxVar)).sort? Δ
      (Function.update G Naming.boxVar (some Prelude.boxSort)) = some Prelude.refSort :=
    Expr.sort?_app (hΔ.unbox .ref) (.cons hbox .nil)
  have helements : ∀ mem : IL.Expr,
      mem.sort? Δ (Function.update G Naming.boxVar (some Prelude.boxSort)) = some .bool →
      (IL.Expr.all [(Naming.boxVar, Prelude.boxSort)] [[mem]]
        (.imp (.conj [mem, .ne (Boxing.unboxRef (.var Naming.boxVar)) Prelude.null])
          (Heap.isFresh v.oldHeap (Boxing.unboxRef (.var Naming.boxVar))))).sort? Δ G =
        some .bool := by
    intro mem hmem
    have hsome := Expr.sort?_conj₂ hmem (Expr.sort?_ne (b := Prelude.null) hobj hscope.null)
    exact WhereClause.sort?_forEach (by simp [hmem]) hsome
      (Heap.sort?_isFresh hΔ hscope.oldGround hobj)
  have hc' := hc _ hscope
  rcases ht with ht | ht
  · have href := Heap.sort?_isFresh hΔ hG.oldGround ((hc G hG).trans (congrArg some ht))
    cases t with
    | set | multiset | seq => simp [Typ.sort, Prelude.setSort, Prelude.multisetSort,
        Prelude.seqSort, Prelude.refSort] at ht
    | _ => exact href
  · cases t <;> simp only [Typ.isCollection, Bool.false_eq_true] at ht
    case set => exact helements _ (Expr.sort?_app hΔ.setMem (.cons hc' (.cons hbox .nil)))
    case multiset =>
      exact helements _ (Expr.sort?_lt (Expr.sort?_nat 0)
        (Expr.sort?_app hΔ.multiplicity (.cons hc' (.cons hbox .nil))))
    case seq => exact helements _ (Expr.sort?_app hΔ.seqContains (.cons hc' (.cons hbox .nil)))

end

/-! ## Expressions -/

section

variable {Δ : Vocabulary} {env : Env} {v : View} {hasThis : Bool} {Γ : Typing}

/-- An expression has a sort wherever the names in scope have theirs. -/
def SortedAs (Δ : Vocabulary) (env : Env) (v : View) (hasThis : Bool) (Γ : Typing) (e : IL.Expr)
    (s : Srt) : Prop :=
  ∀ G, Scope Δ env v hasThis Γ G → e.sort? Δ G = some s

/-- An expression is lowered to one of the sort of its type. -/
def LowersSorted (Δ : Vocabulary) (env : Env) (v : View) (hasThis : Bool) (Γ : Typing)
    (e : Source.Expr) : Prop :=
  ∃ a, (lowerExpr v e).Returns env a ∧ SortedAs Δ env v hasThis Γ a e.typ.sort

theorem lowerExpr?_sorted {o : Option Source.Expr} {s : Srt}
    (h : ∀ e ∈ o, LowersSorted Δ env v hasThis Γ e) (hs : ∀ e ∈ o, e.typ.sort = s) :
    ∃ a, (lowerExpr? v o).Returns env a ∧ a.isSome = o.isSome ∧
      ∀ x ∈ a, SortedAs Δ env v hasThis Γ x s := by
  cases o with
  | none => exact ⟨none, rfl, rfl, by simp⟩
  | some e =>
    obtain ⟨a, ha, hsorted⟩ := h e rfl
    refine ⟨some a, by rw [lowerExpr?]; exact ha.bind rfl, rfl, fun x hx => ?_⟩
    obtain rfl := Option.mem_some.1 hx
    exact hs e rfl ▸ hsorted

theorem receiverArgs_sorted (owner : Option Path) {r : Option Source.Expr}
    (h : ∀ e ∈ r, LowersSorted Δ env v hasThis Γ e)
    (hs : ∀ e ∈ r, e.typ.sort = Prelude.refSort)
    (hthis : owner.isSome → r = none → hasThis = true) :
    ∃ as, (receiverArgs v owner r).Returns env as ∧
      List.Forall₂ (SortedAs Δ env v hasThis Γ) as
        (if owner.isSome then [Prelude.refSort] else []) := by
  cases owner with
  | none => exact ⟨[], rfl, .nil⟩
  | some p =>
    cases r with
    | none => exact ⟨_, rfl, .cons (fun G hG => hG.this (hthis rfl rfl)) .nil⟩
    | some e =>
      obtain ⟨a, ha, hsorted⟩ := h e rfl
      exact ⟨[a], by rw [receiverArgs, lowerReceiver]; exact ha.bind rfl,
        .cons (hs e rfl ▸ hsorted) .nil⟩

theorem lowerArgs_sorted (hΔ : Δ.Operations) {D : Discipline} {es : List Source.Expr}
    {params : List Source.Binder} (h : ∀ e ∈ es, LowersSorted Δ env v hasThis Γ e)
    (hpass : D.Passes es params) :
    ∃ as, (lowerArgs v params es).Returns env as ∧
      List.Forall₂ (SortedAs Δ env v hasThis Γ) as (params.map (·.2.sort)) := by
  induction hpass with
  | nil => exact ⟨[], rfl, .nil⟩
  | @cons e p es params hfit _ ih =>
    obtain ⟨he, hes⟩ := List.forall_mem_cons.1 h
    obtain ⟨a, ha, hsorted⟩ := he
    obtain ⟨as, has, hrest⟩ := ih hes
    refine ⟨Boxing.convert e.typ p.2 a :: as, by rw [lowerArgs]; exact ha.bind (has.bind rfl),
      .cons ?_ hrest⟩
    exact fun G hG => Boxing.sort?_convert hΔ hfit.1 (hsorted G hG)

/-- A collection to which elements are added keeps its sort. -/
theorem lowerElements_sorted (hΔ : Δ.Operations) {es : List Source.Expr} {elem : Typ} {s : Srt}
    {add : IL.Expr → IL.Expr → IL.Expr} {acc : IL.Expr}
    (h : ∀ e ∈ es, LowersSorted Δ env v hasThis Γ e) (hfit : ∀ e ∈ es, e.typ.Fits elem)
    (hadd : ∀ {a b G}, a.sort? Δ G = some s → b.sort? Δ G = some Prelude.boxSort →
      (add a b).sort? Δ G = some s) (hacc : SortedAs Δ env v hasThis Γ acc s) :
    ∃ a, (lowerElements v elem add acc es).Returns env a ∧ SortedAs Δ env v hasThis Γ a s := by
  induction es generalizing acc with
  | nil => exact ⟨acc, rfl, hacc⟩
  | cons e es ih =>
    obtain ⟨he, hes⟩ := List.forall_mem_cons.1 h
    obtain ⟨hefit, hfit⟩ := List.forall_mem_cons.1 hfit
    obtain ⟨x, hx, hsorted⟩ := he
    have hadded : SortedAs Δ env v hasThis Γ
        (add acc (Boxing.box elem (Boxing.convert e.typ elem x))) s := fun G hG =>
      hadd (hacc G hG) (Boxing.sort?_box hΔ (Boxing.sort?_convert hΔ hefit (hsorted G hG)))
    obtain ⟨a, ha, hrest⟩ := ih hes hfit hadded
    exact ⟨a, by rw [lowerElements]; exact hx.bind ha, hrest⟩

/-- A map to which entries are added stays a map. -/
theorem lowerEntries_sorted (hΔ : Δ.Operations) {kvs : List (Source.Expr × Source.Expr)}
    {key value : Typ} {acc : IL.Expr} (hkeys : ∀ p ∈ kvs, LowersSorted Δ env v hasThis Γ p.1)
    (hvalues : ∀ p ∈ kvs, LowersSorted Δ env v hasThis Γ p.2)
    (hfit : ∀ p ∈ kvs, p.1.typ.Fits key ∧ p.2.typ.Fits value)
    (hacc : SortedAs Δ env v hasThis Γ acc Prelude.mapSort) :
    ∃ a, (lowerEntries v key value acc kvs).Returns env a ∧
      SortedAs Δ env v hasThis Γ a Prelude.mapSort := by
  induction kvs generalizing acc with
  | nil => exact ⟨acc, rfl, hacc⟩
  | cons p kvs ih =>
    obtain ⟨⟨x, hx, hxs⟩, hkeys⟩ := List.forall_mem_cons.1 hkeys
    obtain ⟨⟨y, hy, hys⟩, hvalues⟩ := List.forall_mem_cons.1 hvalues
    obtain ⟨⟨hxfit, hyfit⟩, hfit⟩ := List.forall_mem_cons.1 hfit
    have hadded : SortedAs Δ env v hasThis Γ (Prelude.mapBuild acc
        (Boxing.box key (Boxing.convert p.1.typ key x))
        (Boxing.box value (Boxing.convert p.2.typ value y))) Prelude.mapSort := fun G hG =>
      Expr.sort?_app hΔ.mapBuild (.cons (hacc G hG)
        (.cons (Boxing.sort?_box hΔ (Boxing.sort?_convert hΔ hxfit (hxs G hG)))
          (.cons (Boxing.sort?_box hΔ (Boxing.sort?_convert hΔ hyfit (hys G hG))) .nil)))
    obtain ⟨a, ha, hrest⟩ := ih hkeys hvalues hfit hadded
    exact ⟨a, by rw [lowerEntries]; exact hx.bind (hy.bind ha), hrest⟩

/-- The values of a let have the sorts of their types. -/
theorem lowerBindings_sorted {bs : List (String × Source.Expr)}
    (h : ∀ p ∈ bs, LowersSorted Δ env v hasThis Γ p.2) :
    ∃ as, (lowerBindings v bs).Returns env as ∧ ∀ G, Scope Δ env v hasThis Γ G →
      List.Forall₂ (fun b s => b.1 = s.1 ∧ b.2.sort? Δ G = some s.2) as
        (sortBinders (bs.map fun p => (p.1, p.2.typ))) := by
  induction bs with
  | nil => exact ⟨[], rfl, fun _ _ => .nil⟩
  | cons p bs ih =>
    obtain ⟨⟨a, ha, hsorted⟩, hrest⟩ := List.forall_mem_cons.1 h
    obtain ⟨as, has, hbindings⟩ := ih hrest
    exact ⟨(p.1, a) :: as, by rw [lowerBindings]; exact ha.bind (has.bind rfl),
      fun G hG => .cons ⟨rfl, hsorted G hG⟩ (hbindings G hG)⟩

/-- Several expressions have the sorts of their types. -/
theorem lowerTerms_sorted {es : List Source.Expr}
    (h : ∀ e ∈ es, LowersSorted Δ env v hasThis Γ e) :
    ∃ as, (lowerTerms v es).Returns env as ∧
      List.Forall₂ (fun a e => SortedAs Δ env v hasThis Γ a e.typ.sort) as es := by
  induction es with
  | nil => exact ⟨[], rfl, .nil⟩
  | cons e es ih =>
    obtain ⟨⟨a, ha, hsorted⟩, hrest⟩ := List.forall_mem_cons.1 h
    obtain ⟨as, has, hall⟩ := ih hrest
    exact ⟨a :: as, by rw [lowerTerms]; exact ha.bind (has.bind rfl), .cons hsorted hall⟩

theorem lowerTriggers_sorted {ts : List (List Source.Expr)}
    (h : ∀ t ∈ ts, ∀ e ∈ t, LowersSorted Δ env v hasThis Γ e) :
    ∃ as, (lowerTriggers v ts).Returns env as ∧ ∀ G, Scope Δ env v hasThis Γ G →
      ∀ t ∈ as, ∀ a ∈ t, (a.sort? Δ G).isSome := by
  induction ts with
  | nil => exact ⟨[], rfl, by simp⟩
  | cons t ts ih =>
    obtain ⟨ht, hrest⟩ := List.forall_mem_cons.1 h
    obtain ⟨a, ha, hsorted⟩ := lowerTerms_sorted ht
    obtain ⟨as, has, hall⟩ := ih hrest
    refine ⟨a :: as, by rw [lowerTriggers]; exact ha.bind (has.bind rfl), fun G hG =>
      List.forall_mem_cons.2 ⟨fun x hx => ?_, hall G hG⟩⟩
    obtain ⟨e, -, he⟩ := exists_of_forall₂ hsorted.flip hx
    simp [he G hG]

/-- The functions of a constructor are declared. -/
theorem Signed.ctor (hS : Signed Δ env) {dt : Path} {d : Datatype} {name : String} {k : Ctor}
    (hd : env.context.datatype dt = .ok d) (hk : d.ctor name = .ok k) :
    Δ.func (Naming.ctor dt name) = some (k.fields.map (·.2.sort), Prelude.datatypeSort) ∧
      ∀ f ∈ k.fields, Δ.func (Naming.destructor dt name f.1) =
        some ([Prelude.datatypeSort], f.2.sort) := by
  obtain ⟨hmem, rfl⟩ := Datatype.mem_of_ctor hk
  have hdecls := hS.covers.ctors dt d hd k hmem
  refine ⟨hdecls (.func _ _ _) (by simp [Ctor.decls]), fun f hf => hdecls (.func _ _ _) ?_⟩
  simp only [Ctor.decls, List.mem_append, List.mem_map]
  exact .inr ⟨f, hf, rfl⟩

/-- The variables of a match case get the fields of the matched value. -/
theorem caseBindings_sorted (hS : Signed Δ env) {dt : Path} {d : Datatype} {k : Ctor} {p : Pattern}
    {a : IL.Expr} (hd : env.context.datatype dt = .ok d) (hk : d.ctor p.ctor = .ok k)
    (hfit : List.Forall₂ (fun b f => f.2.Fits b.2) p.binders k.fields) :
    ∃ bs, (caseBindings d dt p a).Returns env bs ∧ ∀ G, a.sort? Δ G = some Prelude.datatypeSort →
      List.Forall₂ (fun b s => b.1 = s.1 ∧ b.2.sort? Δ G = some s.2) bs
        (sortBinders p.binders) := by
  refine ⟨_, by rw [caseBindings]; exact ExprM.Returns.bind hk rfl, fun G ha => ?_⟩
  have hfields := (hS.ctor hd hk).2
  generalize p.binders = bs at hfit
  generalize k.fields = fs at hfit hfields
  induction hfit with
  | nil => exact .nil
  | @cons b f bs fs hbf _ ih =>
    obtain ⟨hf, hfs⟩ := List.forall_mem_cons.1 hfields
    have hfield := Expr.sort?_app (G := G) hf (.cons ha .nil)
    exact .cons ⟨rfl, Boxing.sort?_convert hS.covers.operations hbf hfield⟩ (ih hfs)

/-- The cascade of match cases has the sort of the match. There is one if there is a case. -/
theorem lowerArms_sorted (hS : Signed Δ env) {dt : Path} {d : Datatype} {a : IL.Expr}
    {result : Typ} {arms : List (Pattern × Source.Expr)} (hd : env.context.datatype dt = .ok d)
    (hpatterns : ∀ p ∈ arms, ∃ k, d.ctor p.1.ctor = .ok k ∧
      List.Forall₂ (fun b f => f.2.Fits b.2) p.1.binders k.fields)
    (hnames : ∀ p ∈ arms, ∀ b ∈ p.1.binders, ¬ Reserved env v b.1)
    (htyp : ∀ p ∈ arms, p.2.typ.Fits result)
    (harms : ∀ p ∈ arms, LowersSorted Δ env v hasThis (Γ.bind p.1.binders) p.2)
    (ha : SortedAs Δ env v hasThis Γ a Prelude.datatypeSort) :
    ∃ o, (lowerArms v d dt a result arms).Returns env o ∧ (arms ≠ [] → o.isSome) ∧
      ∀ x ∈ o, SortedAs Δ env v hasThis Γ x result.sort := by
  induction arms with
  | nil => exact ⟨none, rfl, by simp, by simp⟩
  | cons p arms ih =>
    obtain ⟨⟨k, hk, hfit⟩, hpatterns⟩ := List.forall_mem_cons.1 hpatterns
    obtain ⟨hname, hnames⟩ := List.forall_mem_cons.1 hnames
    obtain ⟨hptyp, htyp⟩ := List.forall_mem_cons.1 htyp
    obtain ⟨⟨x, hx, hxs⟩, harms⟩ := List.forall_mem_cons.1 harms
    obtain ⟨o, ho, -, hrest⟩ := ih hpatterns hnames htyp harms
    obtain ⟨bs, hbs, hbindings⟩ := caseBindings_sorted (a := a) hS hd hk hfit
    have harm : SortedAs Δ env v hasThis Γ
        (IL.Expr.lets bs (Boxing.convert p.2.typ result x)) result.sort := by
      intro G hG
      refine Expr.sort?_lets (hbindings G (ha G hG)) ?_
      exact Boxing.sort?_convert hS.covers.operations hptyp (hxs _ (hG.bind hS hname))
    cases o with
    | none =>
      refine ⟨some _, by rw [lowerArms]; exact ho.bind (hbs.bind (hx.bind rfl)), by simp,
        fun y hy => ?_⟩
      obtain rfl := Option.mem_some.1 hy
      exact harm
    | some cascade =>
      refine ⟨some _, by rw [lowerArms]; exact ho.bind (hbs.bind (hx.bind rfl)), by simp,
        fun y hy => ?_⟩
      obtain rfl := Option.mem_some.1 hy
      obtain ⟨hmem, hname⟩ := Datatype.mem_of_ctor hk
      intro G hG
      have htest := WhereClause.sort?_isCtor hS hd hmem (ha G hG)
      rw [hname] at htest
      exact Expr.sort?_cond htest (harm G hG) (hrest cascade rfl G hG)

theorem sort?_intConst {G : Sorts} (n : Int) : (intConst n).sort? Δ G = some .int := by
  unfold intConst
  split
  · exact Expr.sort?_sub (Expr.sort?_nat 0) (Expr.sort?_nat _)
  · exact Expr.sort?_nat _

/-- Reading a field gives a value of its type, from the heap if the field is mutable. -/
theorem sort?_readField (hS : Signed Δ env) {G : Sorts} (hG : Scope Δ env v hasThis Γ G)
    {f : Field} (hf : env.context.field f.id = .ok f) {o : IL.Expr}
    (ho : o.sort? Δ G = some Prelude.refSort) :
    (Heap.readField v.heap o (.ofField f)).sort? Δ G = some f.typ.sort := by
  have hΔ := hS.covers.operations
  unfold Heap.readField FieldHandle.ofField
  split
  · rename_i hmut
    have hread : (Prelude.read v.heap o (.var (Naming.field f.id))).sort? Δ G =
        some Prelude.boxSort :=
      Expr.sort?_app hΔ.read (.cons hG.ground.heap (.cons ho (.cons (hG.field f hf hmut) .nil)))
    exact Boxing.sort?_unbox hΔ f.typ hread
  · rename_i hmut
    have hdecl := hS.covers.fields f hf (.func (Naming.field f.id) [Prelude.refSort] f.typ.sort)
      (by simp_all [Request.fieldDecls])
    exact Expr.sort?_app hdecl (.cons ho .nil)

/-- The variant that a call refers to is declared with the function's result. -/
theorem callLayer_declared {f : Path} {layer : Layer} (callee : Function)
    (h : (callLayer v f).Returns env layer) :
    (layer, callee.result.2.sort) ∈ callee.layers (env.context.calls.isRecursive f) := by
  simp only [callLayer, ExprM.returns_bind, ExprM.returns_isRecursive, exists_eq_left] at h
  split at h
  · obtain rfl := ExprM.returns_pure.1 h
    simp [Function.layers]
  · rename_i hrec
    have hrec : env.context.calls.isRecursive f = true := by simpa using hrec
    simp only [ExprM.returns_bind, ExprM.returns_env, exists_eq_left] at h
    have hcases : layer = .normal ∨ layer = .limited := by
      cases hmember : env.member <;> cases hmode : v.layer <;> simp [hmember, hmode] at h <;> grind
    rcases hcases with rfl | rfl <;> simp [Function.layers, hrec]

theorem heapArgs_sorted (callee : Function) :
    List.Forall₂ (SortedAs Δ env v hasThis Γ) (heapArgs v callee)
      (if callee.reads.isEmpty then [] else [Prelude.heapSort]) := by
  unfold heapArgs
  split
  · exact .nil
  · exact .cons (fun G hG => hG.ground.heap) .nil

/-- The arguments of a call have the sorts of the function's parameters. -/
theorem callArgs_sorted {callee : Function} {recv rest : List IL.Expr}
    (hrecv : List.Forall₂ (SortedAs Δ env v hasThis Γ) recv
      (if callee.owner.isSome then [Prelude.refSort] else []))
    (hrest : List.Forall₂ (SortedAs Δ env v hasThis Γ) rest (callee.params.map (·.2.sort)))
    {G : Sorts} (hG : Scope Δ env v hasThis Γ G) :
    List.Forall₂ (fun e s => e.sort? Δ G = some s) (heapArgs v callee ++ recv ++ rest)
      callee.sorts := by
  have hargs : List.Forall₂ (SortedAs Δ env v hasThis Γ) (heapArgs v callee ++ recv ++ rest)
      callee.sorts :=
    List.rel_append (List.rel_append (heapArgs_sorted callee) hrecv) hrest
  exact hargs.imp fun _ _ h => h G hG

theorem sort?_boxLambda {G : Sorts} {a : IL.Expr} {s : Srt}
    (ha : a.sort? Δ (Function.update G Naming.boxVar (some Prelude.boxSort)) = some s) :
    (boxLambda a).sort? Δ G = some .lambda :=
  Expr.sort?_lambda ha

/-- What a comprehension binds to the content of its box has the sort of its type. -/
theorem sort?_letUnboxed (hΔ : Δ.Operations) {G : Sorts} {b : Source.Binder} {body : IL.Expr}
    {s : Srt} (hbox : G Naming.boxVar = some Prelude.boxSort)
    (hbody : body.sort? Δ (G.bind (sortBinders [b])) = some s) :
    (letUnboxed b body).sort? Δ G = some s := by
  have hunboxed : (Boxing.unbox b.2 (.var Naming.boxVar)).sort? Δ G = some b.2.sort :=
    Boxing.sort?_unbox hΔ b.2 hbox
  have hbinding : List.Forall₂ (fun b s => b.1 = s.1 ∧ b.2.sort? Δ G = some s.2)
      [(b.1, Boxing.unbox b.2 (.var Naming.boxVar))] (sortBinders [b]) :=
    .cons ⟨rfl, hunboxed⟩ .nil
  exact Expr.sort?_lets hbinding hbody

variable (Δ env) in
/-- Chosen triggers are well sorted if the formula is. -/
theorem autoTriggers_sorted (bound : List String) (body : IL.Expr) :
    ∃ ts, (autoTriggers bound body).Returns env ts ∧ ∀ G, (body.sort? Δ G).isSome →
      ∀ t ∈ ts, ∀ a ∈ t, (a.sort? Δ G).isSome := by
  refine ⟨_, rfl, fun G hbody => ?_⟩
  split
  · exact Expr.select_sorted hbody
  · simp

variable (Δ env) in
theorem allAuto_sorted (bs : List IL.Binder) (body : IL.Expr) :
    ∃ e, (allAuto bs body).Returns env e ∧ ∀ G : Sorts,
      body.sort? Δ (G.bind bs) = some .bool → e.sort? Δ G = some .bool := by
  obtain ⟨ts, hts, hsorted⟩ := autoTriggers_sorted Δ env (bs.map (·.1)) body
  exact ⟨_, by rw [allAuto]; exact hts.bind rfl, fun G hbody =>
    Expr.sort?_all hbody (hsorted _ (by simp [hbody]))⟩

variable (Δ env) in
theorem exAuto_sorted (bs : List IL.Binder) (body : IL.Expr) :
    ∃ e, (exAuto bs body).Returns env e ∧ ∀ G : Sorts,
      body.sort? Δ (G.bind bs) = some .bool → e.sort? Δ G = some .bool := by
  obtain ⟨ts, hts, hsorted⟩ := autoTriggers_sorted Δ env (bs.map (·.1)) body
  exact ⟨_, by rw [exAuto]; exact hts.bind rfl, fun G hbody =>
    Expr.sort?_ex hbody (hsorted _ (by simp [hbody]))⟩

/-- The predicate of a set comprehension is Boolean. -/
theorem setPredicate_sorted (hS : Signed Δ env) {i : Info} {bs : List Source.Binder}
    {term : Option Source.Expr} {elem : Typ} {wheres range : IL.Expr} (htyp : i.typ = .set elem)
    (hbs : ∀ b ∈ bs, ¬ Reserved env v b.1) (hterm : term = none → ∃ b, bs = [b])
    (helem : ∀ x ∈ term, x.typ.Fits elem)
    (ht : ∀ x ∈ term, LowersSorted Δ env v hasThis (Γ.bind bs) x)
    (hmatrix : ∀ e ∈ [wheres, range], ∀ G, Scope Δ env v hasThis Γ G →
      e.sort? Δ (G.bind (sortBinders bs)) = some .bool) :
    ∃ p, (setPredicate v i bs term wheres range).Returns env p ∧ ∀ G,
      Scope Δ env v hasThis Γ G → G Naming.boxVar = some Prelude.boxSort →
        p.sort? Δ G = some .bool := by
  have hΔ := hS.covers.operations
  obtain ⟨hwheres, hrange⟩ : _ ∧ _ := by simpa using hmatrix
  have hself : ∀ b, bs = [b] → ∀ G, Scope Δ env v hasThis Γ G →
      G Naming.boxVar = some Prelude.boxSort →
        (letUnboxed b (.conj [wheres, range])).sort? Δ G = some .bool := by
    rintro b rfl G hG hbox
    exact sort?_letUnboxed hΔ hbox (Expr.sort?_conj₂ (hwheres G hG) (hrange G hG))
  have hcollected : ∀ t x, term = some t →
      SortedAs Δ env v hasThis (Γ.bind bs) x t.typ.sort → ∀ G, Scope Δ env v hasThis Γ G →
        G Naming.boxVar = some Prelude.boxSort →
          (IL.Expr.conj [wheres, range, .eq (.var Naming.boxVar)
            (Boxing.box elem (Boxing.convert t.typ elem x))]).sort? Δ
              (G.bind (sortBinders bs)) = some .bool := by
    intro t x heq hx G hG hbox
    have hfresh : Naming.boxVar ∉ (sortBinders bs).map (·.1) := by
      rw [sortBinders_names]
      intro hmem
      obtain ⟨b, hb, hname⟩ := List.mem_map.1 hmem
      exact hbs b hb (hname ▸ .generated .box)
    have hvalue := Boxing.sort?_box hΔ (Boxing.sort?_convert hΔ (helem t heq)
      (hx _ (hG.bind hS hbs)))
    have heq := Expr.sort?_eq (a := .var Naming.boxVar)
      ((Sorts.bind_of_notMem hfresh).trans hbox) hvalue
    exact Expr.sort?_conj (by simpa using ⟨hwheres G hG, hrange G hG, heq⟩)
  cases term with
  | none =>
    obtain ⟨b, rfl⟩ := hterm rfl
    exact ⟨_, rfl, hself b rfl⟩
  | some t =>
    obtain ⟨x, hx, hsorted⟩ := ht t rfl
    obtain ⟨p, hp, hpred⟩ := exAuto_sorted Δ env (sortBinders bs)
      (.conj [wheres, range, .eq (.var Naming.boxVar)
        (Boxing.box elem (Boxing.convert t.typ elem x))])
    unfold setPredicate
    split
    · exact ⟨_, rfl, hself _ rfl⟩
    · refine ⟨p, by simp only [htyp]; exact hx.bind hp, fun G hG hbox => ?_⟩
      exact hpred G (hcollected t x rfl hsorted G hG hbox)

/-- The matrix of a quantifier is Boolean. -/
theorem sort?_quantMatrix {G : Sorts} {q : Source.Quantifier} {wheres body : IL.Expr}
    {range : Option IL.Expr} (hwheres : wheres.sort? Δ G = some .bool)
    (hrange : ∀ e ∈ range, e.sort? Δ G = some .bool) (hbody : body.sort? Δ G = some .bool) :
    (quantMatrix q wheres range body).sort? Δ G = some .bool := by
  have hrange : (range.getD .tt).sort? Δ G = some .bool := by
    cases range with
    | none => rfl
    | some r => exact hrange r rfl
  cases q with
  | all => exact Expr.sort?_imp (Expr.sort?_conj₂ hwheres hrange) hbody
  | ex => exact Expr.sort?_conj (by simpa using ⟨hwheres, hrange, hbody⟩)

variable (env v hasThis Γ) in
/-- The empty collection of a kind, and what it becomes with an element more. -/
theorem displayOps_sorted (hΔ : Δ.Operations) {kind : Collection} {t elem : Typ}
    (hkind : kind.Displays t elem) :
    (∀ env : Env, (elemTyp t).Returns env elem) ∧
      SortedAs Δ env v hasThis Γ (displayOps kind).1 t.sort ∧
      ∀ {a b : IL.Expr} {G : Sorts}, a.sort? Δ G = some t.sort →
        b.sort? Δ G = some Prelude.boxSort → ((displayOps kind).2 a b).sort? Δ G = some t.sort := by
  cases kind <;> obtain rfl := hkind
  · exact ⟨fun _ => rfl, fun G hG => hG.setEmpty, fun ha hb =>
      Expr.sort?_app hΔ.setUnionOne (.cons ha (.cons hb .nil))⟩
  · exact ⟨fun _ => rfl, fun G hG => hG.multisetEmpty, fun ha hb =>
      Expr.sort?_app hΔ.multisetUnionOne (.cons ha (.cons hb .nil))⟩
  · exact ⟨fun _ => rfl, fun G hG => hG.seqEmpty, fun ha hb =>
      Expr.sort?_app hΔ.seqBuild (.cons ha (.cons hb .nil))⟩

/-! ### What every form of expression keeps -/

namespace LowersSorted

variable {i : Info} {e a b k x r t : Source.Expr}

theorem bool {c : Bool} (htyp : i.typ.sort = .bool) :
    LowersSorted Δ env v hasThis Γ (.bool i c) :=
  ⟨_, rfl, fun _ _ => congrArg some htyp.symm⟩

theorem int {n : Int} (htyp : i.typ.sort = .int) : LowersSorted Δ env v hasThis Γ (.int i n) :=
  ⟨_, rfl, fun _ _ => (sort?_intConst _).trans (congrArg some htyp.symm)⟩

theorem null (htyp : i.typ.sort = Prelude.refSort) : LowersSorted Δ env v hasThis Γ (.null i) :=
  ⟨_, rfl, fun _ hG => hG.null.trans (congrArg some htyp.symm)⟩

theorem var {y : String} {t : Typ} (hy : Γ y = some t) (htyp : t.sort = i.typ.sort) :
    LowersSorted Δ env v hasThis Γ (.var i y) :=
  ⟨_, rfl, fun _ hG => (hG.vars hy).2.trans (congrArg some htyp)⟩

theorem this (hthis : hasThis = true) (htyp : i.typ.sort = Prelude.refSort) :
    LowersSorted Δ env v hasThis Γ (.this i) :=
  ⟨_, rfl, fun _ hG => (hG.this hthis).trans (congrArg some htyp.symm)⟩

theorem field (hS : Signed Δ env) {fid : FieldId} {f : Field}
    (hfield : env.context.field fid = .ok f) (hobj : e.typ.sort = Prelude.refSort)
    (htyp : f.typ.Fits i.typ) (he : LowersSorted Δ env v hasThis Γ e) :
    LowersSorted Δ env v hasThis Γ (.field i e fid) := by
  obtain ⟨o, ho, hsorted⟩ := he
  have hid : env.context.field f.id = .ok f := by rw [Context.id_of_field hfield]; exact hfield
  refine ⟨_, by
    rw [lowerExpr]
    exact ExprM.Returns.bind (ExprM.returns_field.2 hfield) (ExprM.Returns.bind
      (Heap.returns_fieldHandle.2 (hS.handle f hid).symm) (ho.bind rfl)), fun G hG => ?_⟩
  have hread := sort?_readField hS hG hid ((hsorted G hG).trans (congrArg some hobj))
  exact Boxing.sort?_convert hS.covers.operations htyp hread

theorem index (hΔ : Δ.Operations) (htyp : a.typ.Indexes b.typ i.typ)
    (ha : LowersSorted Δ env v hasThis Γ a) (hb : LowersSorted Δ env v hasThis Γ b) :
    LowersSorted Δ env v hasThis Γ (.index i a b) := by
  obtain ⟨a, ha, has⟩ := ha
  obtain ⟨b, hb, hbs⟩ := hb
  obtain ⟨x, hx, hxs⟩ := lowerIndex_sorted env v (c := a) (i := b) hΔ htyp
  exact ⟨x, by rw [lowerExpr]; exact ha.bind (hb.bind hx), fun G hG =>
    hxs G hG.ground (has G hG) (hbs G hG)⟩

theorem slice (hΔ : Δ.Operations) {lo hi : Option Source.Expr} (hcoll : e.typ.IsSliced)
    (htyp : i.typ.sort = Prelude.seqSort) (hint : ∀ x, x ∈ lo ∨ x ∈ hi → x.typ.sort = .int)
    (he : LowersSorted Δ env v hasThis Γ e) (hlo : ∀ x ∈ lo, LowersSorted Δ env v hasThis Γ x)
    (hhi : ∀ x ∈ hi, LowersSorted Δ env v hasThis Γ x) :
    LowersSorted Δ env v hasThis Γ (.slice i e lo hi) := by
  obtain ⟨a, ha, has⟩ := he
  obtain ⟨l, hl, -, hls⟩ := lowerExpr?_sorted hlo fun x hx => hint x (.inl hx)
  obtain ⟨h, hh, -, hhs⟩ := lowerExpr?_sorted hhi fun x hx => hint x (.inr hx)
  refine ⟨_, by rw [lowerExpr]; exact ha.bind (hl.bind (hh.bind rfl)), fun G hG => ?_⟩
  refine Eq.trans ?_ (congrArg some htyp.symm)
  refine sort?_seqSlice hΔ ?_ (fun x hx => hls x hx G hG) (fun x hx => hhs x hx G hG)
  have hsort := has G hG
  cases hcase : e.typ <;> simp only [hcase, Typ.IsSliced] at hcoll hsort ⊢
  case seq => exact hsort
  case array => exact Expr.sort?_app hΔ.seqFromArray (.cons hG.ground.heap (.cons hsort .nil))

theorem update (hΔ : Δ.Operations) (hcoll : e.typ.Updates k.typ x.typ)
    (htyp : i.typ.sort = e.typ.sort) (he : LowersSorted Δ env v hasThis Γ e)
    (hk : LowersSorted Δ env v hasThis Γ k) (hx : LowersSorted Δ env v hasThis Γ x) :
    LowersSorted Δ env v hasThis Γ (.update i e k x) := by
  obtain ⟨a, ha, has⟩ := he
  obtain ⟨k, hk, hks⟩ := hk
  obtain ⟨x, hx, hxs⟩ := hx
  obtain ⟨y, hy, hys⟩ := lowerUpdate_sorted env (c := a) (i := k) (x := x) hΔ hcoll
  exact ⟨y, by rw [lowerExpr]; exact ha.bind (hk.bind (hx.bind hy)), fun G hG =>
    (hys G (has G hG) (hks G hG) (hxs G hG)).trans (congrArg some htyp.symm)⟩

theorem arrayLength (hΔ : Δ.Operations) (harray : e.typ.sort = Prelude.refSort)
    (htyp : i.typ.sort = .int) (he : LowersSorted Δ env v hasThis Γ e) :
    LowersSorted Δ env v hasThis Γ (.arrayLength i e) := by
  obtain ⟨a, ha, has⟩ := he
  refine ⟨_, by rw [lowerExpr]; exact ha.bind (Heap.returns_arrayLength.2 rfl), fun G hG => ?_⟩
  have hlength : (Prelude.arrayLength a).sort? Δ G = some .int :=
    Expr.sort?_app hΔ.arrayLength (.cons ((has G hG).trans (congrArg some harray)) .nil)
  exact hlength.trans (congrArg some htyp.symm)

theorem display (hΔ : Δ.Operations) {kind : Collection} {es : List Source.Expr} {elem : Typ}
    (hkind : kind.Displays i.typ elem) (htyp : ∀ e ∈ es, e.typ.Fits elem)
    (hes : ∀ e ∈ es, LowersSorted Δ env v hasThis Γ e) :
    LowersSorted Δ env v hasThis Γ (.display i kind es) := by
  obtain ⟨helem, hempty, hadd⟩ := displayOps_sorted env v hasThis Γ hΔ hkind
  obtain ⟨a, ha, has⟩ := lowerElements_sorted hΔ hes htyp hadd hempty
  exact ⟨a, by rw [lowerExpr]; exact (helem env).bind ha, has⟩

theorem mapDisplay (hΔ : Δ.Operations) {kvs : List (Source.Expr × Source.Expr)} {key value : Typ}
    (htyp : i.typ = .map key value) (hentries : ∀ p ∈ kvs, p.1.typ.Fits key ∧ p.2.typ.Fits value)
    (hkeys : ∀ p ∈ kvs, LowersSorted Δ env v hasThis Γ p.1)
    (hvalues : ∀ p ∈ kvs, LowersSorted Δ env v hasThis Γ p.2) :
    LowersSorted Δ env v hasThis Γ (.mapDisplay i kvs) := by
  have hempty : SortedAs Δ env v hasThis Γ Prelude.mapEmpty Prelude.mapSort :=
    fun G hG => hG.mapEmpty
  obtain ⟨a, ha, has⟩ := lowerEntries_sorted hΔ hkeys hvalues hentries hempty
  refine ⟨a, by rw [lowerExpr]; simp only [htyp]; exact ExprM.Returns.bind rfl ha, ?_⟩
  have hsort : i.typ.sort = Prelude.mapSort := by rw [htyp]; rfl
  exact fun G hG => (has G hG).trans (congrArg some hsort.symm)

section

variable {dt : Path} {c f : String} {d : Datatype} {con : Ctor}

theorem ctor (hS : Signed Δ env) {D : Discipline} {es : List Source.Expr}
    (hd : env.context.datatype dt = .ok d) (hctor : d.ctor c = .ok con)
    (htyp : i.typ.sort = Prelude.datatypeSort) (hargs : D.Passes es con.fields)
    (hes : ∀ e ∈ es, LowersSorted Δ env v hasThis Γ e) :
    LowersSorted Δ env v hasThis Γ (.ctor i dt c es) := by
  obtain ⟨as, has, hass⟩ := lowerArgs_sorted hS.covers.operations hes hargs
  refine ⟨_, by
    rw [lowerExpr]
    exact ExprM.Returns.bind (ExprM.returns_datatype.2 hd)
      (ExprM.Returns.bind hctor (has.bind rfl)), fun G hG => ?_⟩
  have happ := Expr.sort?_app (hS.ctor hd hctor).1 (hass.imp fun _ _ h => h G hG)
  exact happ.trans (congrArg some htyp.symm)

theorem destruct (hS : Signed Δ env) {b : Source.Binder} (hd : env.context.datatype dt = .ok d)
    (hctor : d.ctor c = .ok con) (hfield : con.field f = .ok b)
    (hvalue : e.typ.sort = Prelude.datatypeSort) (htyp : b.2.Fits i.typ)
    (he : LowersSorted Δ env v hasThis Γ e) :
    LowersSorted Δ env v hasThis Γ (.destruct i e dt c f) := by
  obtain ⟨a, ha, has⟩ := he
  refine ⟨_, by
    rw [lowerExpr]
    exact ExprM.Returns.bind (ExprM.returns_datatype.2 hd)
      (ExprM.Returns.bind hctor (ExprM.Returns.bind hfield (ha.bind rfl))), fun G hG => ?_⟩
  obtain ⟨hmem, rfl⟩ := Ctor.mem_of_field hfield
  have hpart := Expr.sort?_app (G := G) ((hS.ctor hd hctor).2 b hmem)
    (.cons ((has G hG).trans (congrArg some hvalue)) .nil)
  exact Boxing.sort?_convert hS.covers.operations htyp hpart

theorem isCtor (hS : Signed Δ env) (hd : env.context.datatype dt = .ok d)
    (hctor : d.ctor c = .ok con) (hvalue : e.typ.sort = Prelude.datatypeSort)
    (htyp : i.typ.sort = .bool) (he : LowersSorted Δ env v hasThis Γ e) :
    LowersSorted Δ env v hasThis Γ (.isCtor i e dt c) := by
  obtain ⟨a, ha, has⟩ := he
  refine ⟨_, by rw [lowerExpr]; exact ha.bind rfl, fun G hG => ?_⟩
  obtain ⟨hmem, rfl⟩ := Datatype.mem_of_ctor hctor
  have htest := WhereClause.sort?_isCtor hS hd hmem ((has G hG).trans (congrArg some hvalue))
  exact htest.trans (congrArg some htyp.symm)

end

theorem old (htyp : i.typ.sort = e.typ.sort) (he : LowersSorted Δ env v.old hasThis Γ e) :
    LowersSorted Δ env v hasThis Γ (.old i e) := by
  obtain ⟨a, ha, has⟩ := he
  exact ⟨a, by rw [lowerExpr]; exact ha, fun G hG =>
    (has G hG.old).trans (congrArg some htyp.symm)⟩

theorem fresh (hS : Signed Δ env) (hframe : e.typ.IsFrame) (htyp : i.typ.sort = .bool)
    (he : LowersSorted Δ env v hasThis Γ e) : LowersSorted Δ env v hasThis Γ (.fresh i e) := by
  obtain ⟨a, ha, has⟩ := he
  exact ⟨_, by rw [lowerExpr]; exact ha.bind rfl, fun G hG =>
    (sort?_lowerFresh hS hG hframe has).trans (congrArg some htyp.symm)⟩

theorem unary (hΔ : Δ.Operations) {op : UnOp} (htyp : op.Accepts e.typ i.typ)
    (he : LowersSorted Δ env v hasThis Γ e) : LowersSorted Δ env v hasThis Γ (.unary i op e) := by
  obtain ⟨a, ha, has⟩ := he
  cases op with
  | not =>
    refine ⟨_, by rw [lowerExpr]; exact ha.bind rfl, fun G hG => ?_⟩
    have hneg := Expr.sort?_neg ((has G hG).trans (congrArg some htyp.1))
    exact hneg.trans (congrArg some htyp.2.symm)
  | neg =>
    refine ⟨_, by rw [lowerExpr]; exact ha.bind rfl, fun G hG => ?_⟩
    have hsub := Expr.sort?_sub (Expr.sort?_nat 0) ((has G hG).trans (congrArg some htyp.1))
    exact hsub.trans (congrArg some htyp.2.symm)
  | card =>
    obtain ⟨size, hsize, hsizes⟩ := lowerCard_sorted env hΔ htyp.1
    exact ⟨_, by rw [lowerExpr]; exact hsize.bind (ha.bind rfl), fun G hG =>
      (hsizes (has G hG)).trans (congrArg some htyp.2.symm)⟩

theorem binary (hΔ : Δ.Operations) {op : Source.BinOp} (htyp : op.Accepts a.typ b.typ i.typ)
    (ha : LowersSorted Δ env v hasThis Γ a) (hb : LowersSorted Δ env v hasThis Γ b) :
    LowersSorted Δ env v hasThis Γ (.binary i op a b) := by
  obtain ⟨a, ha, has⟩ := ha
  obtain ⟨b, hb, hbs⟩ := hb
  obtain ⟨x, hx, hxs⟩ := lowerBinary_sorted env (a := a) (b := b) hΔ htyp
  exact ⟨x, by rw [lowerExpr]; exact ha.bind (hb.bind hx), fun G hG =>
    hxs G (has G hG) (hbs G hG)⟩

theorem quant (hS : Signed Δ env) {q : Source.Quantifier} {bs : List Source.Binder}
    {r : Option Source.Expr} {ts : List (List Source.Expr)} {ind : Induction}
    (hnodup : (bs.map (·.1)).Nodup)
    (hbs : ∀ b ∈ bs, ¬ Reserved env v b.1 ∧ b.2.Resolved env.context)
    (htyp : i.typ.sort = .bool) (hbool : ∀ x, x ∈ r ∨ x = e → x.typ.sort = .bool)
    (hr : ∀ x ∈ r, LowersSorted Δ env v hasThis (Γ.bind bs) x)
    (he : LowersSorted Δ env v hasThis (Γ.bind bs) e)
    (hts : ∀ t ∈ ts, ∀ x ∈ t, LowersSorted Δ env v hasThis (Γ.bind bs) x) :
    LowersSorted Δ env v hasThis Γ (.quant i q bs r e ts ind) := by
  have hnames : ∀ b ∈ bs, ¬ Reserved env v b.1 := fun b hb => (hbs b hb).1
  obtain ⟨w, hw, hws⟩ := bindersWhere_sorted v hasThis hS hbs
  obtain ⟨range, hrange, -, hranges⟩ := lowerExpr?_sorted hr fun x hx => hbool x (.inl hx)
  obtain ⟨body, hbody, hbodys⟩ := he
  have hmatrix : ∀ G, Scope Δ env v hasThis Γ G → (quantMatrix q w range body).sort? Δ
      (G.bind (sortBinders bs)) = some .bool := by
    intro G hG
    have hscope := hG.bind hS hnames
    exact sort?_quantMatrix (hws hscope (sorts_of_nodup hnodup))
      (fun x hx => hranges x hx _ hscope)
      ((hbodys _ hscope).trans (congrArg some (hbool e (.inr rfl))))
  have hchosen : ∃ chosen, (chosenTriggers v (bs.map (·.1)) ts
      (quantMatrix q w range body)).Returns env chosen ∧ ∀ G, Scope Δ env v hasThis Γ G →
        ∀ t ∈ chosen, ∀ a ∈ t, (a.sort? Δ (G.bind (sortBinders bs))).isSome := by
    unfold chosenTriggers
    split
    · obtain ⟨chosen, hchosen, hsorted⟩ := autoTriggers_sorted Δ env
        (bs.map (·.1)) (quantMatrix q w range body)
      exact ⟨chosen, hchosen, fun G hG => hsorted _ (by simp [hmatrix G hG])⟩
    · obtain ⟨chosen, hchosen, hsorted⟩ := lowerTriggers_sorted hts
      exact ⟨chosen, hchosen, fun G hG => hsorted _ (hG.bind hS hnames)⟩
  obtain ⟨chosen, hchosen, htriggers⟩ := hchosen
  refine ⟨_, returns_lowerExpr_quant.2 ⟨w, hw, range, hrange, body, hbody, chosen, hchosen, rfl⟩,
    fun G hG => ?_⟩
  exact (Expr.sort?_quantify (hmatrix G hG) (htriggers G hG)).trans (congrArg some htyp.symm)

theorem setComp (hS : Signed Δ env) {bs : List Source.Binder} {t : Option Source.Expr} {elem : Typ}
    (hnodup : (bs.map (·.1)).Nodup)
    (hbs : ∀ b ∈ bs, ¬ Reserved env v b.1 ∧ b.2.Resolved env.context)
    (htyp : i.typ = .set elem) (hbool : r.typ.sort = .bool) (hterm : t = none → ∃ b, bs = [b])
    (helem : ∀ x ∈ t, x.typ.Fits elem) (hr : LowersSorted Δ env v hasThis (Γ.bind bs) r)
    (ht : ∀ x ∈ t, LowersSorted Δ env v hasThis (Γ.bind bs) x) :
    LowersSorted Δ env v hasThis Γ (.setComp i bs r t) := by
  have hnames : ∀ b ∈ bs, ¬ Reserved env v b.1 := fun b hb => (hbs b hb).1
  obtain ⟨w, hw, hws⟩ := bindersWhere_sorted v hasThis hS hbs
  obtain ⟨range, hrange, hranges⟩ := hr
  have hmatrix : ∀ e ∈ [w, range], ∀ G, Scope Δ env v hasThis Γ G →
      e.sort? Δ (G.bind (sortBinders bs)) = some .bool := by
    simp only [List.forall_mem_cons, List.not_mem_nil, false_implies, implies_true, and_true]
    exact ⟨fun G hG => hws (hG.bind hS hnames) (sorts_of_nodup hnodup), fun G hG =>
      (hranges _ (hG.bind hS hnames)).trans (congrArg some hbool)⟩
  obtain ⟨p, hp, hpred⟩ := setPredicate_sorted hS htyp hnames hterm helem ht hmatrix
  refine ⟨_, returns_lowerExpr_setComp.2 ⟨w, hw, range, hrange, p, hp, rfl⟩, fun G hG => ?_⟩
  have hlambda := sort?_boxLambda
    (hpred _ (hG.update hS .box (some Prelude.boxSort)) (Function.update_self ..))
  have hset : (Prelude.setFromPredicate (boxLambda p)).sort? Δ G = some Prelude.setSort :=
    Expr.sort?_app hS.covers.operations.setFromPredicate (.cons hlambda .nil)
  have hsort : i.typ.sort = Prelude.setSort := by rw [htyp]; rfl
  exact hset.trans (congrArg some hsort.symm)

theorem mapComp (hS : Signed Δ env) {b : Source.Binder} {key value : Typ}
    (hb : ¬ Reserved env v b.1 ∧ b.2.Resolved env.context) (htyp : i.typ = .map key value)
    (hbool : r.typ.sort = .bool) (hvalue : t.typ.Fits value)
    (hr : LowersSorted Δ env v hasThis (Γ.bind [b]) r)
    (ht : LowersSorted Δ env v hasThis (Γ.bind [b]) t) :
    LowersSorted Δ env v hasThis Γ (.mapComp i b r t) := by
  have hΔ := hS.covers.operations
  have hnames : ∀ c ∈ [b], ¬ Reserved env v c.1 := List.forall_mem_singleton.2 hb.1
  obtain ⟨w, hw, hws⟩ := bindersWhere_sorted v hasThis hS (List.forall_mem_singleton.2 hb)
  obtain ⟨range, hrange, hranges⟩ := hr
  obtain ⟨x, hx, hxs⟩ := ht
  refine ⟨_, by
    rw [lowerExpr]
    simp only [htyp]
    exact ExprM.Returns.bind rfl (hw.bind (hrange.bind (hx.bind rfl))), fun G hG => ?_⟩
  have hbox := hG.update hS .box (some Prelude.boxSort)
  have hscope := hbox.bind hS hnames
  have hdomain := Expr.sort?_conj₂ (hws hscope (sorts_of_nodup (by simp)))
    ((hranges _ hscope).trans (congrArg some hbool))
  have hmapped := Boxing.sort?_box hΔ (Boxing.sort?_convert hΔ hvalue (hxs _ hscope))
  have hunboxed : ∀ {a s}, a.sort? Δ (Sorts.bind (sortBinders [b]) (Function.update G
      Naming.boxVar (some Prelude.boxSort))) = some s →
      (boxLambda (letUnboxed b a)).sort? Δ G = some .lambda := fun ha =>
    sort?_boxLambda (sort?_letUnboxed hΔ (Function.update_self ..) ha)
  have hset : (Prelude.setFromPredicate (boxLambda (letUnboxed b (.conj [w, range])))).sort? Δ G =
      some Prelude.setSort := Expr.sort?_app hΔ.setFromPredicate (.cons (hunboxed hdomain) .nil)
  have hmap := Expr.sort?_app hΔ.mapGlue (.cons hset (.cons (hunboxed hmapped) .nil))
  have hsort : i.typ.sort = Prelude.mapSort := by rw [htyp]; rfl
  exact hmap.trans (congrArg some hsort.symm)

theorem letIn (hS : Signed Δ env) {bs : List (String × Source.Expr)}
    (hnames : ∀ p ∈ bs, ¬ Reserved env v p.1) (htyp : i.typ.sort = e.typ.sort)
    (hbs : ∀ p ∈ bs, LowersSorted Δ env v hasThis Γ p.2)
    (he : LowersSorted Δ env v hasThis (Γ.bind (bs.map fun p => (p.1, p.2.typ))) e) :
    LowersSorted Δ env v hasThis Γ (.letIn i bs e) := by
  obtain ⟨as, has, hbindings⟩ := lowerBindings_sorted hbs
  obtain ⟨a, ha, hsorted⟩ := he
  refine ⟨_, by rw [lowerExpr]; exact has.bind (ha.bind rfl), fun G hG => ?_⟩
  have hbound : ∀ b ∈ bs.map fun p => (p.1, p.2.typ), ¬ Reserved env v b.1 := by
    intro b hb
    obtain ⟨p, hp, rfl⟩ := List.mem_map.1 hb
    exact hnames p hp
  have hlets := Expr.sort?_lets (hbindings G hG) (hsorted _ (hG.bind hS hbound))
  exact hlets.trans (congrArg some htyp.symm)

theorem ite (hΔ : Δ.Operations) (hbool : e.typ.sort = .bool)
    (htyp : a.typ.Fits i.typ ∧ b.typ.Fits i.typ) (he : LowersSorted Δ env v hasThis Γ e)
    (ha : LowersSorted Δ env v hasThis Γ a) (hb : LowersSorted Δ env v hasThis Γ b) :
    LowersSorted Δ env v hasThis Γ (.ite i e a b) := by
  obtain ⟨c, hc, hcs⟩ := he
  obtain ⟨a, ha, has⟩ := ha
  obtain ⟨b, hb, hbs⟩ := hb
  refine ⟨_, by rw [lowerExpr]; exact ha.bind (hb.bind (hc.bind rfl)), fun G hG => ?_⟩
  exact Expr.sort?_cond ((hcs G hG).trans (congrArg some hbool))
    (Boxing.sort?_convert hΔ htyp.1 (has G hG)) (Boxing.sort?_convert hΔ htyp.2 (hbs G hG))

theorem cases (hS : Signed Δ env) {arms : List (Pattern × Source.Expr)} {dt : Path} {ts : List Typ}
    {d : Datatype} (hd : env.context.datatype dt = .ok d) (hvalue : e.typ = .datatype dt ts)
    (hne : arms ≠ [])
    (hpatterns : ∀ p ∈ arms, ∃ ctor, d.ctor p.1.ctor = .ok ctor ∧
      List.Forall₂ (fun b f => f.2.Fits b.2) p.1.binders ctor.fields)
    (hnames : ∀ p ∈ arms, ∀ b ∈ p.1.binders, ¬ Reserved env v b.1)
    (htyp : ∀ p ∈ arms, p.2.typ.Fits i.typ) (he : LowersSorted Δ env v hasThis Γ e)
    (harms : ∀ p ∈ arms, LowersSorted Δ env v hasThis (Γ.bind p.1.binders) p.2) :
    LowersSorted Δ env v hasThis Γ (.cases i e arms) := by
  obtain ⟨a, ha, has⟩ := he
  obtain ⟨o, ho, hsome, hsorted⟩ := lowerArms_sorted hS hd hpatterns hnames htyp harms
    (fun G hG => (has G hG).trans (by rw [hvalue]; rfl))
  obtain ⟨x, rfl⟩ := Option.isSome_iff_exists.1 (hsome hne)
  exact ⟨x, returns_lowerExpr_cases.2 ⟨a, ha, dt, returns_matchedDatatype.2 ⟨ts, hvalue⟩, d, hd,
    ho⟩, hsorted x rfl⟩

theorem call (hS : Signed Δ env) {D : Discipline} {f : Path} {r : Option Source.Expr}
    {es : List Source.Expr} {callee : Function} (hf : env.context.function f = .ok callee)
    (hthis : callee.owner.isSome → r = none → hasThis = true)
    (hrecv : ∀ x ∈ r, x.typ.sort = Prelude.refSort) (hargs : D.Passes es callee.params)
    (htyp : callee.result.2.Fits i.typ) (hr : ∀ x ∈ r, LowersSorted Δ env v hasThis Γ x)
    (hes : ∀ e ∈ es, LowersSorted Δ env v hasThis Γ e) :
    LowersSorted Δ env v hasThis Γ (.call i f r es) := by
  obtain ⟨layer, hlayer⟩ : ∃ layer, (callLayer v f).Returns env layer := callLayer_returns f
  obtain ⟨recv, hrecvs, hrs⟩ := receiverArgs_sorted callee.owner hr hrecv hthis
  obtain ⟨rest, has, hass⟩ := lowerArgs_sorted hS.covers.operations hes hargs
  refine ⟨_, returns_lowerExpr_call.2 ⟨callee, hf, layer, hlayer, recv, hrecvs, rest, has, rfl⟩,
    fun G hG => ?_⟩
  have hdecl := hS.covers.functions f callee hf _ (callLayer_declared callee hlayer)
  exact Boxing.sort?_convert hS.covers.operations htyp
    (Expr.sort?_app hdecl (callArgs_sorted hrs hass hG))

end LowersSorted

/-- A well-typed expression is lowered to an expression of the sort of its type, if no variable it
binds has a reserved name. -/
theorem lowerExpr_sorted (hS : Signed Δ env) {D : Discipline} {e : Source.Expr}
    (he : WellTyped env.context D hasThis Γ e) (hD : ∀ x, D.binder x → ¬ Reserved env v x) :
    LowersSorted Δ env v hasThis Γ e := by
  have hΔ := hS.covers.operations
  have hbind {v : View} {bs : List Source.Binder} (hD : ∀ x, D.binder x → ¬ Reserved env v x)
      (hbs : ∀ b ∈ bs, D.binder b.1 ∧ b.2.Resolved env.context) :
      ∀ b ∈ bs, ¬ Reserved env v b.1 ∧ b.2.Resolved env.context :=
    fun b hb => ⟨hD _ (hbs b hb).1, (hbs b hb).2⟩
  induction he generalizing v with
  | bool htyp => exact .bool htyp
  | int htyp => exact .int htyp
  | null htyp => exact .null htyp
  | var htyp => exact .var htyp rfl
  | this hthis htyp => exact .this hthis htyp
  | field hfield hobj htyp _ ih => exact .field hS hfield hobj htyp (ih hD)
  | index htyp _ _ iha ihb => exact .index hΔ htyp (iha hD) (ihb hD)
  | slice hcoll htyp hint _ _ _ ih ihlo ihhi =>
    exact .slice hΔ hcoll htyp hint (ih hD) (fun x hx => ihlo x hx hD) fun x hx => ihhi x hx hD
  | update hcoll htyp _ _ _ ihe ihk ihx => exact .update hΔ hcoll htyp (ihe hD) (ihk hD) (ihx hD)
  | arrayLength harray htyp _ ih => exact .arrayLength hΔ harray htyp (ih hD)
  | display hkind htyp _ ih => exact .display hΔ hkind htyp fun e he => ih e he hD
  | mapDisplay htyp hentries _ _ ihk ihv =>
    exact .mapDisplay hΔ htyp hentries (fun p hp => ihk p hp hD) fun p hp => ihv p hp hD
  | ctor hd hctor htyp hargs _ ih => exact .ctor hS hd hctor htyp hargs fun e he => ih e he hD
  | destruct hd hctor hfield hvalue htyp _ ih =>
    exact .destruct hS hd hctor hfield hvalue htyp (ih hD)
  | isCtor hd hctor hvalue htyp _ ih => exact .isCtor hS hd hctor hvalue htyp (ih hD)
  | old htyp _ ih => exact .old htyp (ih fun x hx hr => hD x hx hr.of_old)
  | fresh hframe htyp _ ih => exact .fresh hS hframe htyp (ih hD)
  | unary htyp _ ih => exact .unary hΔ htyp (ih hD)
  | binary htyp _ _ iha ihb => exact .binary hΔ htyp (iha hD) (ihb hD)
  | quant hnodup hbs htyp hbool _ _ _ ihr ihe ihts =>
    exact .quant hS hnodup (hbind hD hbs) htyp hbool (fun x hx => ihr x hx hD) (ihe hD)
      fun t ht x hx => ihts t ht x hx hD
  | setComp hnodup hbs htyp hbool hterm helem _ _ ihr iht =>
    exact .setComp hS hnodup (hbind hD hbs) htyp hbool hterm helem (ihr hD)
      fun x hx => iht x hx hD
  | mapComp hb htyp hbool hvalue _ _ ihr iht =>
    exact .mapComp hS ⟨hD _ hb.1, hb.2⟩ htyp hbool hvalue (ihr hD) (iht hD)
  | letIn hnames htyp _ _ ihbs ihe =>
    exact .letIn hS (fun p hp => hD _ (hnames p hp)) htyp (fun p hp => ihbs p hp hD) (ihe hD)
  | ite hbool htyp _ _ _ ihe iha ihb => exact .ite hΔ hbool htyp (ihe hD) (iha hD) (ihb hD)
  | cases hd hvalue hne hpatterns hnames htyp _ _ ihe ihs =>
    exact .cases hS hd hvalue hne hpatterns (fun p hp b hb => hD _ (hnames p hp b hb)) htyp
      (ihe hD) fun p hp => ihs p hp hD
  | call hf hthis hrecv hargs htyp _ _ ihr ihes =>
    exact .call hS hf hthis hrecv hargs htyp (fun x hx => ihr x hx hD) fun e he => ihes e he hD

end

end ContractLowering
