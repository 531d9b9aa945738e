import ContractLowering.Proofs.IL.Folding
import ContractLowering.Proofs.IL.Rename
import Mathlib.Logic.Relator

/-!
# Expressions that differ in bound names

`Alpha C a b` says that `a` and `b` are the same up to the names of bound variables, where `C`
relates the names that are free in `a` to those that are free in `b`. Below binders the names that
stand at the same place of the two lists correspond, and shadow what corresponded before (`under`).
Triggers are compared like the body they belong to. `a.AlphaEq b` is the relation for closed scopes,
where every free name corresponds to itself.
-/

namespace ContractLowering.IL

/-! ## Corresponding names -/

/-- Two lists of names of one length that repeat names at the same places. -/
def Consistent (xs ys : List String) : Prop :=
  xs.length = ys.length ∧ ∀ p ∈ xs.zip ys, ∀ q ∈ xs.zip ys, p.1 = q.1 ↔ p.2 = q.2

/-- Which names correspond below binders. -/
def under (xs ys : List String) (C : String → String → Prop) (x y : String) : Prop :=
  (x, y) ∈ xs.zip ys ∨ x ∉ xs ∧ y ∉ ys ∧ C x y

section

variable {xs ys : List String} {C : String → String → Prop} {x y : String}

@[simp] theorem under_nil : under [] [] C = C := by
  funext x y
  simp [under]

/-- A name that both sides bind alone changes nothing if it corresponded to itself. -/
theorem under_singleton (hC : Relator.BiUnique C) (hx : C x x) : under [x] [x] C = C := by
  funext y z
  refine propext ⟨?_, fun h => ?_⟩
  · rintro (h | ⟨-, -, h⟩)
    · obtain ⟨rfl, rfl⟩ : y = x ∧ z = x := by simpa using h
      exact hx
    · exact h
  · by_cases hy : y = x
    · subst hy
      exact .inl (by simp [hC.2 h hx])
    · refine .inr ⟨by simpa using hy, fun hz => hy ?_, h⟩
      rw [List.mem_singleton.1 hz] at h
      exact hC.1 h hx

theorem under_of_notMem (hx : x ∉ xs) (hy : y ∉ ys) (h : C x y) : under xs ys C x y :=
  .inr ⟨hx, hy, h⟩

/-- Corresponding names are bound on both sides or on none. -/
theorem mem_iff_of_under (h : under xs ys C x y) : x ∈ xs ↔ y ∈ ys := by
  rcases h with h | ⟨hx, hy, -⟩
  · exact ⟨fun _ => (List.of_mem_zip h).2, fun _ => (List.of_mem_zip h).1⟩
  · exact ⟨fun h => absurd h hx, fun h => absurd h hy⟩

theorem Consistent.biUnique (h : Consistent xs ys) (hC : Relator.BiUnique C) :
    Relator.BiUnique (under xs ys C) := by
  constructor
  · rintro x y z hxz hyz
    rcases hxz with hxz | ⟨hx, hz, hxz⟩
    · rcases hyz with hyz | ⟨-, hz, -⟩
      · exact (h.2 _ hxz _ hyz).2 rfl
      · exact absurd (List.of_mem_zip hxz).2 hz
    · rcases hyz with hyz | ⟨-, -, hyz⟩
      · exact absurd (List.of_mem_zip hyz).2 hz
      · exact hC.1 hxz hyz
  · rintro x y z hxy hxz
    rcases hxy with hxy | ⟨hx, hy, hxy⟩
    · rcases hxz with hxz | ⟨hx, -, -⟩
      · exact (h.2 _ hxy _ hxz).1 rfl
      · exact absurd (List.of_mem_zip hxy).1 hx
    · rcases hxz with hxz | ⟨-, -, hxz⟩
      · exact absurd (List.of_mem_zip hxz).1 hx
      · exact hC.2 hxy hxz

theorem mem_zip_self {p : String × String} : p ∈ xs.zip xs ↔ p.1 ∈ xs ∧ p.1 = p.2 := by
  induction xs with
  | nil => simp
  | cons a xs ih =>
    obtain ⟨x, y⟩ := p
    simp only [List.zip_cons_cons, List.mem_cons, Prod.mk.injEq, ih]
    constructor
    · rintro (⟨rfl, rfl⟩ | ⟨hx, rfl⟩)
      · exact ⟨.inl rfl, rfl⟩
      · exact ⟨.inr hx, rfl⟩
    · rintro ⟨rfl | hx, rfl⟩
      · exact .inl ⟨rfl, rfl⟩
      · exact .inr ⟨hx, rfl⟩

theorem Consistent.refl (xs : List String) : Consistent xs xs := by
  refine ⟨rfl, fun p hp q hq => ?_⟩
  rw [(mem_zip_self.1 hp).2, (mem_zip_self.1 hq).2]

/-- A name that corresponds to itself does so below binders that are the same on both sides. -/
theorem under_self (h : C x x) : under xs xs C x x := by
  by_cases hx : x ∈ xs
  · exact .inl (mem_zip_self.2 ⟨hx, rfl⟩)
  · exact .inr ⟨hx, hx, h⟩

theorem Consistent.singleton (x y : String) : Consistent [x] [y] :=
  ⟨rfl, by simp⟩

end

/-! ## Expressions -/

/-- The same expression up to the names of bound variables, for a correspondence of free names. -/
inductive Alpha : (String → String → Prop) → Expr → Expr → Prop
  | bool {C} (b : Bool) : Alpha C (.bool b) (.bool b)
  | num {C} (d : String) : Alpha C (.num d) (.num d)
  | var {C x y} (h : C x y) : Alpha C (.var x) (.var y)
  | old {C} (x : String) : Alpha C (.old x) (.old x)
  | app {C g as bs} (hlen : as.length = bs.length)
      (h : ∀ a b, (a, b) ∈ as.zip bs → Alpha C a b) : Alpha C (.app g as) (.app g bs)
  | applyLambda {C s f g as bs} (hf : Alpha C f g) (hlen : as.length = bs.length)
      (h : ∀ a b, (a, b) ∈ as.zip bs → Alpha C a b) :
      Alpha C (.applyLambda s f as) (.applyLambda s g bs)
  | not {C a b} (h : Alpha C a b) : Alpha C (.not a) (.not b)
  | binary {C op a a' b b'} (ha : Alpha C a a') (hb : Alpha C b b') :
      Alpha C (.binary op a b) (.binary op a' b')
  | multi {C op as bs} (hlen : as.length = bs.length)
      (h : ∀ a b, (a, b) ∈ as.zip bs → Alpha C a b) : Alpha C (.multi op as) (.multi op bs)
  | ite {C a a' b b' c c'} (ha : Alpha C a a') (hb : Alpha C b b') (hc : Alpha C c c') :
      Alpha C (.ite a b c) (.ite a' b' c')
  | letIn {C} {us vs : List (String × Expr)} {a b}
      (hnames : Consistent (us.map (·.1)) (vs.map (·.1)))
      (hvalues : ∀ a b, (a, b) ∈ (us.map (·.2)).zip (vs.map (·.2)) → Alpha C a b)
      (h : Alpha (under (us.map (·.1)) (vs.map (·.1)) C) a b) :
      Alpha C (.letIn us a) (.letIn vs b)
  | quant {C q} {us vs : List Binder} {ts ts' a b}
      (hnames : Consistent (us.map (·.1)) (vs.map (·.1))) (hsorts : us.map (·.2) = vs.map (·.2))
      (hlen : ts.length = ts'.length) (hlens : ∀ t t', (t, t') ∈ ts.zip ts' → t.length = t'.length)
      (hts : ∀ t t', (t, t') ∈ ts.zip ts' → ∀ a b, (a, b) ∈ t.zip t' →
        Alpha (under (us.map (·.1)) (vs.map (·.1)) C) a b)
      (h : Alpha (under (us.map (·.1)) (vs.map (·.1)) C) a b) :
      Alpha C (.quant q us ts a) (.quant q vs ts' b)
  | lambda {C} {us vs : List Binder} {a b} (hnames : Consistent (us.map (·.1)) (vs.map (·.1)))
      (hsorts : us.map (·.2) = vs.map (·.2))
      (h : Alpha (under (us.map (·.1)) (vs.map (·.1)) C) a b) :
      Alpha C (.lambda us a) (.lambda vs b)

/-- Two expressions are the same up to the names of bound variables. -/
def Expr.AlphaEq (a b : Expr) : Prop := Alpha Eq a b

namespace Alpha

variable {C : String → String → Prop} {a a' b b' c c' : Expr} {as bs : List Expr}

theorem forall₂_iff : List.Forall₂ (Alpha C) as bs ↔
    as.length = bs.length ∧ ∀ a b, (a, b) ∈ as.zip bs → Alpha C a b :=
  List.forall₂_iff_zip.trans (and_congr_right fun _ => ⟨fun h _ _ => h, fun h _ _ => h _ _⟩)

theorem app_iff {g : String} :
    Alpha C (.app g as) b ↔ ∃ bs, b = .app g bs ∧ List.Forall₂ (Alpha C) as bs := by
  constructor
  · rintro (_ | _)
    exact ⟨_, rfl, forall₂_iff.2 ⟨‹_›, ‹_›⟩⟩
  · rintro ⟨bs, rfl, h⟩
    obtain ⟨hlen, h⟩ := forall₂_iff.1 h
    exact .app hlen h

theorem multi' {op : MultiOp} (h : List.Forall₂ (Alpha C) as bs) :
    Alpha C (.multi op as) (.multi op bs) := by
  obtain ⟨hlen, h⟩ := forall₂_iff.1 h
  exact .multi hlen h

theorem eq (ha : Alpha C a a') (hb : Alpha C b b') : Alpha C (.eq a b) (.eq a' b') := .binary ha hb

/-- Folding does not look at names. -/
theorem folding : Folding (Alpha C) where
  head h := by
    cases h with
    | bool b => exact .bool b
    | not h => exact .not h
    | multi hlen h => exact .multi (forall₂_iff.2 ⟨hlen, h⟩)
    | _ => exact .other trivial trivial
  bool := .bool
  not := .not
  multi := multi'
  binary := .binary
  ite := .ite

theorem neg (h : Alpha C a b) : Alpha C a.neg b.neg := folding.neg h

theorem conj (h : List.Forall₂ (Alpha C) as bs) : Alpha C (.conj as) (.conj bs) := folding.conj h

theorem imp (ha : Alpha C a a') (hb : Alpha C b b') : Alpha C (.imp a b) (.imp a' b') :=
  folding.imp ha hb

theorem cond (ha : Alpha C a a') (hb : Alpha C b b') (hc : Alpha C c c') :
    Alpha C (.cond a b c) (.cond a' b' c') :=
  folding.cond ha hb hc

/-- Lets with corresponding names and values. -/
theorem lets {us vs : List (String × Expr)}
    (hnames : Consistent (us.map (·.1)) (vs.map (·.1)))
    (hvalues : List.Forall₂ (fun u v => Alpha C u.2 v.2) us vs)
    (h : Alpha (under (us.map (·.1)) (vs.map (·.1)) C) a b) :
    Alpha C (.lets us a) (.lets vs b) := by
  cases hvalues with
  | nil => simpa [Expr.lets] using h
  | cons hv hrest =>
    refine .letIn hnames ?_ h
    refine (forall₂_iff.1 ?_).2
    rw [List.forall₂_map_left_iff, List.forall₂_map_right_iff]
    exact .cons hv hrest

/-- Quantifiers with corresponding variables, triggers and bodies. -/
theorem quantify {q : Quantifier} {us vs : List Binder} {ts ts' : List Trigger}
    (hnames : Consistent (us.map (·.1)) (vs.map (·.1))) (hsorts : us.map (·.2) = vs.map (·.2))
    (hts : List.Forall₂ (List.Forall₂ (Alpha (under (us.map (·.1)) (vs.map (·.1)) C))) ts ts')
    (h : Alpha (under (us.map (·.1)) (vs.map (·.1)) C) a b) :
    Alpha C (.quantify q us ts a) (.quantify q vs ts' b) := by
  cases us with
  | nil =>
    obtain rfl : vs = [] := List.map_eq_nil_iff.1 hsorts.symm
    simpa [Expr.quantify] using h
  | cons u us =>
    cases vs with
    | nil => simp at hsorts
    | cons v vs =>
      obtain ⟨hlen, hts⟩ := List.forall₂_iff_zip.1 hts
      exact .quant hnames hsorts hlen (fun _ _ ht => (forall₂_iff.1 (hts ht)).1)
        (fun _ _ ht => (forall₂_iff.1 (hts ht)).2) h

/-- An expression all of whose names correspond to themselves, without its triggers. -/
theorem of_names (e : Expr) : ∀ {C : String → String → Prop}, (∀ x ∈ e.names, C x x) →
    Alpha C (e.ren id) (e.ren id) := by
  have self {es : List Expr} {C : String → String → Prop}
      (h : ∀ e ∈ es, Alpha C (e.ren id) (e.ren id)) :
      List.Forall₂ (Alpha C) (es.map (Expr.ren id)) (es.map (Expr.ren id)) := by
    rw [List.forall₂_map_left_iff, List.forall₂_map_right_iff]
    exact List.forall₂_same.2 h
  induction e using Expr.recData with
  | bool b => intros; exact .bool b
  | num d => intros; exact .num d
  | old x => intros; exact .old x
  | var x => intro C h; exact .var (h x (by simp [Expr.names]))
  | app g args ih =>
    intro C h
    rw [Expr.ren_app]
    refine app_iff.2 ⟨_, rfl, self fun e he => ih e he fun x hx => h x ?_⟩
    rw [Expr.names, Expr.mem_namesList]
    exact ⟨e, he, hx⟩
  | applyLambda s g args ihg ih =>
    intro C h
    rw [Expr.ren_applyLambda]
    obtain ⟨hlen, hargs⟩ := forall₂_iff.1 (self fun e he => ih e he fun x hx => h x (by
      rw [Expr.names, List.mem_append, Expr.mem_namesList]
      exact .inr ⟨e, he, hx⟩))
    exact .applyLambda (ihg fun x hx => h x (by simp [Expr.names, hx])) hlen hargs
  | not e ih => intro C h; exact .not (ih h)
  | binary op a b iha ihb =>
    intro C h
    exact .binary (iha fun x hx => h x (by simp [Expr.names, hx]))
      (ihb fun x hx => h x (by simp [Expr.names, hx]))
  | multi op es ih =>
    intro C h
    rw [Expr.ren_multi]
    refine multi' (self fun e he => ih e he fun x hx => h x ?_)
    rw [Expr.names, Expr.mem_namesList]
    exact ⟨e, he, hx⟩
  | ite c a b ihc iha ihb =>
    intro C h
    exact .ite (ihc fun x hx => h x (by simp [Expr.names, hx]))
      (iha fun x hx => h x (by simp [Expr.names, hx]))
      (ihb fun x hx => h x (by simp [Expr.names, hx]))
  | letIn bs body ihbs ih =>
    intro C h
    rw [Expr.ren_letIn, keep_id]
    have hnames : (bs.map fun b => (b.1, b.2.ren id)).map (·.1) = bs.map (·.1) := by simp
    have hvalues : (bs.map fun b => (b.1, b.2.ren id)).map (·.2) =
        (bs.map (·.2)).map (Expr.ren id) := by simp
    refine .letIn (.refl _) ?_ ?_
    · rw [hvalues]
      refine (forall₂_iff.1 (self fun e he => ?_)).2
      obtain ⟨b, hb, rfl⟩ := List.mem_map.1 he
      refine ihbs b hb fun x hx => h x ?_
      rw [Expr.names, List.mem_append, List.mem_append, Expr.mem_namesBindings]
      exact .inl (.inr ⟨b, hb, hx⟩)
    · rw [hnames]
      exact ih fun x hx => under_self (h x (by simp [Expr.names, hx]))
  | quant q bs ts body ih =>
    intro C h
    rw [Expr.ren_quant, keep_id]
    exact .quant (.refl _) rfl rfl (by simp) (by simp)
      (ih fun x hx => under_self (h x (by simp [Expr.names, hx])))
  | lambda bs body ih =>
    intro C h
    rw [Expr.ren_lambda, keep_id]
    exact .lambda (.refl _) rfl (ih fun x hx => under_self (h x (by simp [Expr.names, hx])))

end Alpha

end ContractLowering.IL
