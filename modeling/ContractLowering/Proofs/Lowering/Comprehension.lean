import ContractLowering.Proofs.Lowering.Dependence
import ContractLowering.Proofs.Lowering.Established
import ContractLowering.Proofs.Lowering.SortedChecks
import ContractLowering.Proofs.Standard.Foreign

/-!
# Members of set comprehensions

A comprehension over one variable that collects the variable itself is lowered to the boxes whose
content satisfies the range, any other one to the boxes of its terms at values that satisfy the
range. For a term that is equal to the variable both sets have the same members among the boxes of
the variable's sort (`comprehension_members`). Of other boxes the prelude does not say what
unboxing gives, and the first set has those that happen to be unboxed to a value that satisfies
the range (`foreign_member`).
-/

namespace ContractLowering

open IL Source Model

variable {M : Model} {Δ : Vocabulary} {env : Env} {v : View} {hasThis : Bool} {Γ : Typing}
  {G : Sorts} {old σ : M.Valuation} {t : Typ} {c : M.Val}

/-! ## Boxes in models of the prelude -/

/-- The box of a value of a type. -/
def IL.Model.boxed (M : Model) (t : Typ) (a : M.Val) : M.Val :=
  match t.boxSort? with
  | none => a
  | some s => M.app s.boxName [a]

/-- Boxes give back what was put in. -/
theorem unboxed_boxed (hM : Model.SatisfiesPrelude old σ) {a : M.Val} (ha : M.carrier t.sort a) :
    M.unboxed t (M.boxed t a) = a := by
  unfold Model.unboxed Model.boxed
  cases hs : t.boxSort? with
  | none => rfl
  | some s =>
    rw [Boxing.sort_of_boxSort? hs] at ha
    have hfact := Prelude.holds_of_mem hM.facts
      (e := Standard.forAll [("x", s.sort)]
        (.eq ((Standard.Op.unbox s).on [(Standard.Op.box s).on [.var "x"]]) (.var "x")))
      (by cases s <;> simp [Standard.facts, Standard.Facts.boxes, Prelude.BoxSort.all])
    have := (holds_eq _ _).1 (Prelude.holds_forAll_one.1 hfact a ha)
    simpa [Standard.Op.on, Standard.Op.name, Standard.Op.declared] using this

/-- The members of a set made of a predicate are the boxes for which the lambda is true. -/
theorem mem_fromPredicate (hM : Model.SatisfiesPrelude old σ) {l : M.Val}
    (hl : M.carrier .lambda l) (hc : M.carrier Prelude.boxSort c) :
    M.app "Set.mem" [M.app "Set.FromPredicate" [l], c] = M.applyLam .bool l [c] := by
  have hfact := Prelude.holds_of_mem hM.facts
    (e := Standard.forAll [("l", .lambda), ("b", Prelude.boxSort)]
      (.eq (Standard.Op.setMem.on [Standard.Op.setFromPredicate.on [.var "l"], .var "b"])
        (.applyLambda .bool (.var "l") [.var "b"]))) (by simp [Standard.facts, Standard.Facts.sets])
  have := (holds_eq _ _).1 (Prelude.holds_at_two hfact hl hc)
  simpa [Standard.Op.on, Standard.Op.name, Standard.Op.declared, Expr.eval_applyLambda] using this

/-! ## Members -/

/-- A set that is made of a predicate has the boxes that satisfy it: its lambda is applied as its
body says. -/
structure IL.Model.MadeOf {M : Model} (old σ : M.Valuation) (p : IL.Expr) : Prop where
  carrier : M.carrier .lambda ((boxLambda p).eval old σ)
  apply : ∀ c, M.carrier Prelude.boxSort c →
    (M.truth (M.applyLam .bool ((boxLambda p).eval old σ) [c]) ↔
      Holds old (Function.update σ Naming.boxVar c) p)

/-- A box is a member of a set. -/
def IL.Model.IsMember {M : Model} (old σ : M.Valuation) (e : IL.Expr) (c : M.Val) : Prop :=
  M.truth (M.app "Set.mem" [e.eval old σ, c])

theorem isMember_iff (hM : Model.SatisfiesPrelude old σ) {p : IL.Expr}
    (hp : Model.MadeOf old σ p) (hc : M.carrier Prelude.boxSort c) :
    Model.IsMember old σ (Prelude.setFromPredicate (boxLambda p)) c ↔
      Holds old (Function.update σ Naming.boxVar c) p := by
  rw [Model.IsMember, Prelude.setFromPredicate, Expr.eval_app, List.map_cons, List.map_nil,
    mem_fromPredicate hM hp.carrier hc]
  exact hp.apply c hc

/-- A value of a variable that satisfies its where clause and the range. -/
def IL.Model.InRange {M : Model} (old σ : M.Valuation) (x : String) (w range : IL.Expr)
    (a : M.Val) : Prop :=
  Holds old (Function.update σ x a) w ∧ Holds old (Function.update σ x a) range

/-- A box of a value of the variable that satisfies the where clause and the range. -/
def IL.Model.Collected {M : Model} (old σ : M.Valuation) (b : Source.Binder) (w range : IL.Expr)
    (c : M.Val) : Prop :=
  ∃ a, M.carrier b.2.sort a ∧ Model.InRange old σ b.1 w range a ∧ c = M.boxed b.2 a

section

variable {b : Source.Binder} {i : Info} {r : Source.Expr} {term : Option Source.Expr}
  {w range e : IL.Expr}

/-- The where clause and the range of a well-typed comprehension are Boolean. -/
theorem setComp_sorted (hS : Signed Δ env)
    (h : WellTyped env.context (.lowering env v) hasThis Γ (.setComp i [b] r term))
    (hw : (bindersWhere v.heap [b]).Returns env w) (hr : (lowerExpr v r).Returns env range) :
    SortedAs Δ env v hasThis (Γ.bind [b]) w .bool ∧
      SortedAs Δ env v hasThis (Γ.bind [b]) range .bool := by
  cases h with
  | setComp hnodup hbs htyp hbool hterm helem hrange ht =>
    refine ⟨bindersWhere_sortedAs hS hnodup hbs hw, ?_⟩
    obtain ⟨a, ha, hsorted⟩ := lowerExpr_sorted hS hrange fun _ hx => hx
    obtain rfl := hr.unique ha
    exact hbool ▸ hsorted

/-- What a comprehension that collects its variable has as members: the boxes whose content
satisfies the where clause and the range. -/
theorem isMember_collecting (hM : Model.SatisfiesPrelude old σ) (hS : Signed Δ env)
    (hG : Scope Δ env v hasThis Γ G)
    (h : WellTyped env.context (.lowering env v) hasThis Γ (.setComp i [b] r term))
    (hw : (bindersWhere v.heap [b]).Returns env w) (hr : (lowerExpr v r).Returns env range)
    (hp : Model.MadeOf old σ (letUnboxed b (.conj [w, range])))
    (hc : M.carrier Prelude.boxSort c) :
    Model.IsMember old σ (Prelude.setFromPredicate (boxLambda (letUnboxed b (.conj [w, range])))) c ↔
      Model.InRange old σ b.1 w range (M.unboxed b.2 c) := by
  obtain ⟨hws, hrs⟩ := setComp_sorted hS h hw hr
  have hb : ¬ Reserved env v b.1 := by
    cases h with
    | setComp hnodup hbs => exact (hbs b (by simp)).1
  have hscope := hG.bind hS (List.forall_mem_singleton.2 hb)
  rw [isMember_iff hM hp hc, Holds,
    eval_letUnboxed hS (fun G hG => Expr.sort?_conj₂ (hws G hG) (hrs G hG)) hscope]
  exact (holds_conj _).trans (by simp [Model.InRange])

theorem returns_setPredicate_collecting (hself : collectsBinder b.1 term = true) {p : IL.Expr}
    (hp : (setPredicate v i [b] term w range).Returns env p) :
    p = letUnboxed b (.conj [w, range]) := by
  simp only [setPredicate, List.headD_cons, hself] at hp
  exact ExprM.returns_pure.1 hp

/-- The box of a native value that was not just unboxed. Boxing undoes unboxing, so what was would
give another box. -/
theorem eval_box {y : IL.Expr} (hΔ : Δ.Operations) (hsort : y.sort? Δ G = some t.sort)
    (hplain : ∀ s inner, Boxing.applied? y ≠ some (.unboxed s inner)) :
    (Boxing.box t y).eval old σ = M.boxed t (y.eval old σ) := by
  unfold Boxing.box Model.boxed
  cases hs : t.boxSort? with
  | none => rfl
  | some s =>
    cases happlied : Boxing.applied? y with
    | none => exact Expr.eval_app ..
    | some a =>
      cases a with
      | unboxed s' inner => exact absurd happlied (hplain s' inner)
      | boxed s' inner =>
        -- what is boxed already does not have a native sort
        rw [Boxing.eq_of_boxed happlied] at hsort
        exact absurd ((Boxing.sort_of_boxSort? hs).symm.trans
          (Boxing.arg_sort (hΔ.box s') hsort).1) (Boxing.boxSort_ne s)

/-- A comprehension over one variable whose terms are the values of the variable has their boxes as
members. -/
theorem isMember_general (hM : Model.SatisfiesPrelude old σ) (hS : Signed Δ env)
    (hG : Scope Δ env v hasThis Γ G) {d : Source.Expr} {y : IL.Expr} {p : IL.Expr}
    (h : WellTyped env.context (.lowering env v) hasThis Γ (.setComp i [b] r (some d)))
    (hself : collectsBinder b.1 (some d) = false) (hi : i.typ = .set b.2) (hd : d.typ = b.2)
    (hw : (bindersWhere v.heap [b]).Returns env w) (hr : (lowerExpr v r).Returns env range)
    (hy : (lowerExpr v d).Returns env y)
    (hplain : ∀ s inner, Boxing.applied? y ≠ some (.unboxed s inner))
    (hequal : ∀ a, M.carrier b.2.sort a → y.eval old (Function.update σ b.1 a) = a)
    (hsets : (setPredicate v i [b] (some d) w range).Returns env p) (hp : Model.MadeOf old σ p)
    (hc : M.carrier Prelude.boxSort c) :
    Model.IsMember old σ (Prelude.setFromPredicate (boxLambda p)) c ↔
      Model.Collected old σ b w range c := by
  obtain ⟨hws, hrs⟩ := setComp_sorted hS h hw hr
  have hΔ := hS.covers.operations
  have hb : ∀ b' ∈ [b], ¬ Reserved env v b'.1 := by
    cases h with
    | setComp hnodup hbs => exact fun b' hb' => (hbs b' hb').1
  have hys : SortedAs Δ env v hasThis (Γ.bind [b]) y b.2.sort := by
    cases h with
    | setComp _ _ _ _ _ _ _ hterm =>
      obtain ⟨a, ha, hsorted⟩ := lowerExpr_sorted hS (hterm d rfl) fun _ hx => hx
      obtain rfl := hy.unique ha
      exact hd ▸ hsorted
  have hscope := hG.bind hS hb
  obtain ⟨ts, rfl⟩ : ∃ ts, p = .ex (sortBinders [b]) ts
      (.conj [w, range, .eq (.var Naming.boxVar) (Boxing.box b.2 y)]) := by
    simp only [setPredicate, List.headD_cons, hself, hi, elemTyp, exAuto, ExprM.returns_bind,
      ExprM.returns_pure, exists_eq_left, hd, Boxing.convert_self] at hsets
    obtain ⟨y', hy', ts, -, rfl⟩ := hsets
    obtain rfl := hy.unique hy'
    exact ⟨ts, rfl⟩
  rw [isMember_iff hM hp hc, holds_collected hS hb hws hrs
    (fun G hG => Boxing.sort?_box hΔ (hys G hG)) hscope]
  have hbox : ∀ a, M.carrier b.2.sort a →
      (Boxing.box b.2 y).eval old (Function.update σ b.1 a) = M.boxed b.2 a := by
    intro a ha
    rw [eval_box hΔ (hys _ hscope) hplain, hequal a ha]
  constructor
  · rintro ⟨τ, hτ, hholds⟩
    obtain ⟨a, ha, hnil⟩ := assigns_cons.1 hτ
    obtain rfl := assigns_nil.1 hnil
    exact ⟨a, ha, ⟨hholds.1, hholds.2.1⟩, hholds.2.2.trans (hbox a ha)⟩
  · rintro ⟨a, ha, hrange, rfl⟩
    exact ⟨_, assigns_cons.2 ⟨a, ha, assigns_nil.2 rfl⟩, hrange.1, hrange.2, (hbox a ha).symm⟩

/-- The two encodings of a comprehension over one variable agree on boxes of the variable's sort.
What is collected is the variable itself, or a term that is equal to it and not just unboxed. Every
model of the prelude is meant in which lambdas are applied as their bodies say. -/
theorem comprehension_members (hM : Model.SatisfiesPrelude old σ) (hS : Signed Δ env)
    (hG : Scope Δ env v hasThis Γ G)
    (h : WellTyped env.context (.lowering env v) hasThis Γ (.setComp i [b] r term))
    (hself : collectsBinder b.1 term = true)
    (he : (lowerExpr v (.setComp i [b] r term)).Returns env e)
    (hlambda : ∀ p, e = Prelude.setFromPredicate (boxLambda p) → Model.MadeOf old σ p) :
    ∃ w range, (bindersWhere v.heap [b]).Returns env w ∧ (lowerExpr v r).Returns env range ∧
      (∀ c, M.carrier Prelude.boxSort c →
        (Model.IsMember old σ e c ↔ Model.InRange old σ b.1 w range (M.unboxed b.2 c)) ∧
        ((∃ a, M.carrier b.2.sort a ∧ c = M.boxed b.2 a) →
          (Model.IsMember old σ e c ↔ Model.Collected old σ b w range c))) ∧
      ∀ j d y e', WellTyped env.context (.lowering env v) hasThis Γ (.setComp j [b] r (some d)) →
        collectsBinder b.1 (some d) = false → j.typ = .set b.2 → d.typ = b.2 →
        (lowerExpr v d).Returns env y →
        (∀ s inner, Boxing.applied? y ≠ some (.unboxed s inner)) →
        (∀ a, M.carrier b.2.sort a → y.eval old (Function.update σ b.1 a) = a) →
        (lowerExpr v (.setComp j [b] r (some d))).Returns env e' →
        (∀ p, e' = Prelude.setFromPredicate (boxLambda p) → Model.MadeOf old σ p) →
        ∀ c, M.carrier Prelude.boxSort c →
          (Model.IsMember old σ e' c ↔ Model.Collected old σ b w range c) := by
  obtain ⟨w, hw, range, hr, p, hp, rfl⟩ := returns_lowerExpr_setComp.1 he
  obtain rfl := returns_setPredicate_collecting hself hp
  have hmember {c : M.Val} (hc : M.carrier Prelude.boxSort c) :=
    isMember_collecting hM hS hG h hw hr (hlambda _ rfl) hc
  refine ⟨w, range, hw, hr, fun c hc => ⟨hmember hc, ?_⟩, ?_⟩
  · rintro ⟨a, ha, rfl⟩
    rw [hmember hc, unboxed_boxed hM ha]
    constructor
    · exact fun hrange => ⟨a, ha, hrange, rfl⟩
    · rintro ⟨a', ha', hrange, hbox⟩
      rwa [← unboxed_boxed hM ha, hbox, unboxed_boxed hM ha']
  · intro j d y e' h' hself' hj hd hy hplain hequal he' hlambda' c hc
    obtain ⟨w', hw', range', hr', p', hp', rfl⟩ := returns_lowerExpr_setComp.1 he'
    obtain rfl := hw.unique hw'
    obtain rfl := hr.unique hr'
    exact isMember_general hM hS hG h' hself' hj hd hw hr hy hplain hequal hp' (hlambda' _ rfl) hc

end

/-! The integers that are equal to one. -/

namespace Ones

open Standard

variable {k : ℤ} {old ρ : (Foreign.model k).Valuation} {n : ℕ}

def number : Source.Expr := .var ⟨default, .int⟩ "i"

/-- That the number is one. -/
def range : Source.Expr := .binary ⟨default, .bool⟩ .eq number (.int ⟨default, .int⟩ 1)

/-- The number, as a sum. -/
def sum : Source.Expr := .binary ⟨default, .int⟩ .add number (.int ⟨default, .int⟩ 0)

/-- The numbers, or the terms for them. -/
def comprehension (term : Option Source.Expr) : Source.Expr :=
  .setComp ⟨default, .set .int⟩ [("i", .int)] range term

/-- What the range is lowered to. -/
def isOne : IL.Expr := .eq (.var "i") (.nat 1)

/-- What the sum is lowered to. -/
def plusZero : IL.Expr := .add (.var "i") (.nat 0)

/-- The predicate of the set of numbers. -/
def unboxedOne : IL.Expr := letUnboxed ("i", .int) isOne

/-- The predicate of the set of sums. -/
def boxedSum (ts : List IL.Trigger) : IL.Expr :=
  .ex [("i", .int)] ts (.conj [isOne, .eq (.var Naming.boxVar) (Boxing.box .int plusZero)])

theorem wellTyped {term : Option Source.Expr} (hterm : term = none ∨ term = some sum) :
    WellTyped Counter.env.context (.lowering Counter.env Counter.view) false Counter.typing
      (comprehension term) := by
  have hnumber : WellTyped Counter.env.context (.lowering Counter.env Counter.view) false
      (Counter.typing.bind [("i", .int)]) number := .var rfl
  refine .setComp (by simp) ?_ rfl rfl (fun _ => ⟨_, rfl⟩) ?_
    (.binary ⟨.inl rfl, rfl⟩ hnumber (.int rfl)) ?_
  · intro b hb
    obtain rfl := List.mem_singleton.1 hb
    exact ⟨fun h => Counter.not_reserved h rfl, trivial⟩
  · rintro d hd
    obtain rfl | rfl := hterm
    · cases hd
    · cases hd
      exact .inl rfl
  · rintro d hd
    obtain rfl | rfl := hterm
    · cases hd
    · cases hd
      exact .binary ⟨trivial, rfl, rfl⟩ hnumber (.int rfl)

theorem returns_none : (lowerExpr Counter.view (comprehension none)).Returns Counter.env
    (Prelude.setFromPredicate (boxLambda unboxedOne)) := rfl

theorem returns_sum : ∃ ts, (lowerExpr Counter.view (comprehension (some sum))).Returns Counter.env
    (Prelude.setFromPredicate (boxLambda (boxedSum ts))) :=
  ⟨_, returns_lowerExpr_setComp.2 ⟨.tt, rfl, isOne, rfl, _, rfl, rfl⟩⟩

theorem holds_unboxedOne :
    Holds old (Function.update ρ Naming.boxVar (Val.box n)) unboxedOne ↔ n ∈ Foreign.ones k := by
  rw [Foreign.mem_ones]
  exact holds_eq _ _

/-- The sum stands for the number. -/
theorem eval_plusZero (a : ℤ) {σ : (Foreign.model k).Valuation} (hσ : σ "i" = Val.int a) :
    plusZero.eval old σ = Val.int a := by
  show Val.int (([σ "i", .int 0] : List Val).map Val.toInt).sum = _
  simp [hσ, Val.toInt]

theorem holds_boxedSum {ts : List IL.Trigger} :
    Holds old (Function.update ρ Naming.boxVar (Val.box n)) (boxedSum ts) ↔
      n = Foreign.one := by
  have hmatrix {σ : (Foreign.model k).Valuation} {a : ℤ} (hσ : σ "i" = Val.int a) :
      Holds old σ
        (.conj [isOne, .eq (.var Naming.boxVar) (Boxing.box .int plusZero)]) ↔
          a = 1 ∧ σ Naming.boxVar = Val.box (code (.inr (.int a))) := by
    have hbox : (Boxing.box .int plusZero).eval old σ = Val.box (code (.inr (.int a))) := by
      rw [← Foreign.app_box (k := k), ← eval_plusZero a hσ]
      rfl
    have hone : Holds old σ isOne ↔ a = 1 := by
      rw [isOne, holds_eq, Expr.eval_var, hσ]
      exact Val.int.injEq .. ▸ Iff.rfl
    simp [hone, hbox]
  let σ (a : ℤ) : (Foreign.model k).Valuation :=
    Function.update (Function.update ρ Naming.boxVar (Val.box n)) "i" (Val.int a)
  have hnumber (a : ℤ) : σ a "i" = Val.int a := Function.update_self ..
  have hbox (a : ℤ) : σ a Naming.boxVar = Val.box n :=
    (Function.update_of_ne (by decide) ..).trans (Function.update_self ..)
  rw [boxedSum, holds_ex]
  constructor
  · rintro ⟨τ, hτ, h⟩
    obtain ⟨v, hv, hnil⟩ := assigns_cons.1 hτ
    obtain rfl := assigns_nil.1 hnil
    obtain ⟨a, rfl⟩ := Val.sort_eq_int.1 hv
    obtain ⟨rfl, hone⟩ := (hmatrix (hnumber a)).1 h
    exact Val.box.inj ((hbox 1).symm.trans hone)
  · rintro rfl
    exact ⟨σ 1, assigns_cons.2 ⟨Val.int 1, rfl, assigns_nil.2 rfl⟩,
      (hmatrix (hnumber 1)).2 ⟨rfl, hbox 1⟩⟩

theorem madeOf {p : IL.Expr} (hp : ∀ n : ℕ,
    Holds old (Function.update ρ Naming.boxVar (Val.box n)) p ↔ n ∈ Foreign.ones k) :
    Model.MadeOf old ρ p where
  carrier := rfl
  apply c hc := by
    obtain ⟨n, rfl⟩ := Val.sort_eq_box.1 hc
    rw [hp n]
    refine Val.ofProp_eq_true.trans ⟨?_, fun hn => ⟨n, hn, rfl⟩⟩
    rintro ⟨m, hm, heq⟩
    cases heq
    exact hm

/-- A state where the constants have their values. -/
def state (k : ℤ) : (Foreign.model k).Valuation := Interval.state 0 0 0

theorem satisfiesPrelude (k : ℤ) : Model.SatisfiesPrelude (state k) (state k) :=
  Foreign.satisfiesPrelude ⟨rfl, rfl, rfl, rfl, rfl⟩

theorem carrier_box (k : ℤ) (n : ℕ) : (Foreign.model k).carrier Prelude.boxSort (Val.box n) := rfl

theorem madeOf_direct {p : IL.Expr}
    (h : Prelude.setFromPredicate (boxLambda unboxedOne) = Prelude.setFromPredicate (boxLambda p)) :
    Model.MadeOf old ρ p := by
  obtain rfl : unboxedOne = p := by simpa [Prelude.setFromPredicate, boxLambda] using h
  exact madeOf fun n => holds_unboxedOne

end Ones

/-- In a model where no foreign box holds one, the set of the integers that are equal to one and
the set of their sums with zero are the same. -/
theorem comprehension_members_ones :
    Model.SatisfiesPrelude (Ones.state 0) (Ones.state 0) ∧
    ∃ e, (lowerExpr Counter.view (Ones.comprehension none)).Returns Counter.env e ∧
      ∃ e', (lowerExpr Counter.view (Ones.comprehension (some Ones.sum))).Returns Counter.env e' ∧
        ∀ a, (Standard.Foreign.model 0).carrier .int a →
          (Model.IsMember (Ones.state 0) (Ones.state 0) e ((Standard.Foreign.model 0).boxed .int a) ↔
            Model.IsMember (Ones.state 0) (Ones.state 0) e'
              ((Standard.Foreign.model 0).boxed .int a)) := by
  open Standard in
  obtain ⟨ts, hsum⟩ := Ones.returns_sum
  refine ⟨Ones.satisfiesPrelude 0, _, Ones.returns_none, _, hsum, fun a ha => ?_⟩
  obtain ⟨w, range, hw, hr, hmembers, hgeneral⟩ := comprehension_members (Ones.satisfiesPrelude 0)
    Counter.signed Counter.scope (Ones.wellTyped (.inl rfl)) rfl Ones.returns_none
    fun p => Ones.madeOf_direct
  have hc : (Foreign.model 0).carrier Prelude.boxSort ((Foreign.model 0).boxed .int a) := by
    obtain ⟨n, rfl⟩ := Val.sort_eq_int.1 ha
    exact congrArg Val.sort (Foreign.app_box (k := 0) n)
  refine ((hmembers _ hc).2 ⟨a, ha, rfl⟩).trans (hgeneral _ Ones.sum _ _
    (Ones.wellTyped (.inr rfl)) rfl rfl rfl rfl nofun (fun v hv => ?_) hsum (fun p hp => ?_) _
    hc).symm
  · obtain ⟨n, rfl⟩ := Val.sort_eq_int.1 hv
    exact Ones.eval_plusZero n (Function.update_self ..)
  · obtain rfl : Ones.boxedSum ts = p := by simpa [Prelude.setFromPredicate, boxLambda] using hp
    exact Ones.madeOf fun n => Ones.holds_boxedSum.trans (by simp [Foreign.ones])

/-- A box of a Boolean is a member of the set of integers that are equal to one, in a model of the
prelude where it is unboxed to one, though it does not hold an integer. -/
theorem foreign_member :
    Model.SatisfiesPrelude (Ones.state 1) (Ones.state 1) ∧ Signed Counter.vocabulary Counter.env ∧
    Scope Counter.vocabulary Counter.env Counter.view false Counter.typing Counter.sorts ∧
    WellTyped Counter.env.context (.lowering Counter.env Counter.view) false Counter.typing
      (Ones.comprehension none) ∧
    ∃ e w range, (lowerExpr Counter.view (Ones.comprehension none)).Returns Counter.env e ∧
      (∀ p, e = Prelude.setFromPredicate (boxLambda p) →
        Model.MadeOf (Ones.state 1) (Ones.state 1) p) ∧
      (bindersWhere Counter.view.heap [("i", .int)]).Returns Counter.env w ∧
      (lowerExpr Counter.view Ones.range).Returns Counter.env range ∧
      ∃ c, (Standard.Foreign.model 1).carrier Prelude.boxSort c ∧
        Model.IsMember (Ones.state 1) (Ones.state 1) e c ∧
        ¬ Model.Collected (Ones.state 1) (Ones.state 1) ("i", .int) w range c := by
  open Standard in
  refine ⟨Ones.satisfiesPrelude 1, Counter.signed, Counter.scope, Ones.wellTyped (.inl rfl),
    _, _, _, Ones.returns_none, fun p => Ones.madeOf_direct, rfl, rfl, Val.box Foreign.foreign, rfl,
    ?_, ?_⟩
  · refine (isMember_iff (Ones.satisfiesPrelude 1) (Ones.madeOf_direct rfl)
      (Ones.carrier_box 1 _)).2 (Ones.holds_unboxedOne.2 ?_)
    simp [Foreign.ones]
  · rintro ⟨v, hv, -, hbox⟩
    obtain ⟨a, rfl⟩ := Val.sort_eq_int.1 hv
    have hcode : Val.box Foreign.foreign = Val.box (code (.inr (.int a))) :=
      hbox.trans (Foreign.app_box (k := 1) a)
    simp [Foreign.foreign] at hcode

end ContractLowering
