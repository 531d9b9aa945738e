import ContractLowering.Proofs.IL.Carriers
import ContractLowering.Proofs.IL.Folding
import ContractLowering.Proofs.Lowering.Congruence

/-!
# Expressions in two scopes

Where a variable is replaced by a term, or a binder renamed, lowered code stands in another scope
and is to say there what it said before. `Mirrors` relates two expressions with the same value and
the same sort in two scopes. It is no congruence of values alone: folding constructors look at
constants and operators, and boxing looks at box functions, so related expressions also look alike
at their heads. That makes it a congruence of lowering (`Scopes.Fits.congruence`).
-/

namespace ContractLowering

open IL Source

namespace IL

/-- Which valuations, and which sorts of names, of two scopes belong together. -/
structure Scopes (M : Model) where
  values : M.Valuation → M.Valuation → Prop
  sorts : Sorts → Sorts → Prop

section

variable {M : Model} {Δ : Vocabulary} {old : M.Valuation} {K : Scopes M} {a a' b b' c c' : Expr}
  {as as' : List Expr}

/-- The scopes below binders. Names at the same place have the same value and the same sort. -/
def Scopes.under (K : Scopes M) (xs ys : List String) : Scopes M where
  values σ σ' := ∃ ρ ρ' vs, K.values ρ ρ' ∧ vs.length = xs.length ∧
    σ = Model.bind (xs.zip vs) ρ ∧ σ' = Model.bind (ys.zip vs) ρ'
  sorts H H' := ∃ G G' ss, K.sorts G G' ∧ ss.length = xs.length ∧
    H = G.bind (xs.zip ss) ∧ H' = G'.bind (ys.zip ss)

/-- The second expression has in the second scope the value and the sort of the first one in the
first. -/
structure Transfers (Δ : Vocabulary) (old : M.Valuation) (K : Scopes M) (a a' : Expr) : Prop where
  value : ∀ {ρ ρ'}, K.values ρ ρ' → a'.eval old ρ' = a.eval old ρ
  sort : ∀ {G G' s}, K.sorts G G' → a.sort? Δ G = some s → a'.sort? Δ G' = some s

namespace Transfers

theorem values (h : List.Forall₂ (Transfers Δ old K) as as') {ρ ρ' : M.Valuation}
    (hρ : K.values ρ ρ') : as'.map (·.eval old ρ') = as.map (·.eval old ρ) := by
  induction h with
  | nil => rfl
  | cons h _ ih => rw [List.map_cons, List.map_cons, h.value hρ, ih]

theorem sorts (h : List.Forall₂ (Transfers Δ old K) as as') {G G' : Sorts} (hG : K.sorts G G')
    {ss : List Srt} (hs : List.Forall₂ (fun e s => e.sort? Δ G = some s) as ss) :
    List.Forall₂ (fun e s => e.sort? Δ G' = some s) as' ss := by
  induction h generalizing ss with
  | nil =>
    cases hs
    exact .nil
  | cons h _ ih =>
    obtain _ | ⟨hs, hss⟩ := hs
    exact .cons (h.sort hG hs) (ih hss)

theorem bool (b : Bool) : Transfers Δ old K (.bool b) (.bool b) := ⟨fun _ => rfl, fun _ h => h⟩

theorem num (d : String) : Transfers Δ old K (.num d) (.num d) := ⟨fun _ => rfl, fun _ h => h⟩

theorem app {g : String} (h : List.Forall₂ (Transfers Δ old K) as as') :
    Transfers Δ old K (.app g as) (.app g as') where
  value hρ := by rw [Expr.eval_app, Expr.eval_app, values h hρ]
  sort hG hs := by
    obtain ⟨ss, hg, hss⟩ := Expr.args_of_sort?_app hs
    exact Expr.sort?_app hg (sorts h hG hss)

theorem not (h : Transfers Δ old K a a') : Transfers Δ old K (.not a) (.not a') where
  value hρ := by rw [Expr.eval_not, Expr.eval_not, h.value hρ]
  sort hG hs := by
    rw [Expr.sort?_not_eq, Option.ite_none_right_eq_some] at hs ⊢
    exact ⟨h.sort hG hs.1, hs.2⟩

theorem binary {op : BinOp} (ha : Transfers Δ old K a a') (hb : Transfers Δ old K b b') :
    Transfers Δ old K (.binary op a b) (.binary op a' b') where
  value hρ := by rw [Expr.eval_binary, Expr.eval_binary, ha.value hρ, hb.value hρ]
  sort hG hs := by
    simp only [Expr.sort?_binary_eq, Option.bind_eq_some_iff] at hs
    obtain ⟨s, hs, t, ht, hop⟩ := hs
    exact Expr.sort?_binary hop (ha.sort hG hs) (hb.sort hG ht)

theorem multi {op : MultiOp} (h : List.Forall₂ (Transfers Δ old K) as as') :
    Transfers Δ old K (.multi op as) (.multi op as') where
  value hρ := by rw [Expr.eval_multi, Expr.eval_multi, values h hρ]
  sort hG hs := by
    simp only [Expr.sort?_multi_eq, Option.bind_eq_some_iff] at hs
    obtain ⟨ss, hss, hop⟩ := hs
    exact Expr.sort?_multi hop (sorts h hG (Expr.sorts?_eq_some.1 hss))

theorem ite (ha : Transfers Δ old K a a') (hb : Transfers Δ old K b b')
    (hc : Transfers Δ old K c c') : Transfers Δ old K (.ite a b c) (.ite a' b' c') where
  value hρ := by rw [Expr.eval_ite, Expr.eval_ite, ha.value hρ, hb.value hρ, hc.value hρ]
  sort hG hs := by
    rw [Expr.sort?_ite_eq, Option.ite_none_right_eq_some] at hs ⊢
    obtain ⟨⟨hcond, hsame⟩, hs⟩ := hs
    have hthen := hb.sort hG hs
    exact ⟨⟨ha.sort hG hcond, hthen.trans (hc.sort hG (hsame ▸ hs)).symm⟩, hthen⟩

theorem letIn {us vs : List (String × Expr)}
    (h : List.Forall₂ (fun u v => Transfers Δ old K u.2 v.2) us vs)
    (hbody : Transfers Δ old (K.under (us.map (·.1)) (vs.map (·.1))) a a') :
    Transfers Δ old K (.letIn us a) (.letIn vs a') where
  value {ρ ρ'} hρ := by
    rw [Expr.eval_letIn, Expr.eval_letIn]
    refine hbody.value ⟨ρ, ρ', us.map (·.2.eval old ρ), hρ, by simp, ?_, ?_⟩
    · rw [List.zip_map']
    · have hvalues : vs.map (·.2.eval old ρ') = us.map (·.2.eval old ρ) := by
        have hparts : List.Forall₂ (Transfers Δ old K) (us.map (·.2)) (vs.map (·.2)) := by
          rw [List.forall₂_map_left_iff, List.forall₂_map_right_iff]
          exact h
        have hall := values hparts hρ
        simpa [List.map_map, Function.comp_def] using hall
      rw [← hvalues, List.zip_map']
  sort {G G' s} hG hs := by
    have hs' : (Expr.bindingSorts? Δ us G).bind (fun bs => a.sort? Δ (G.bind bs)) = some s := hs
    obtain ⟨bs, hbs, hbody'⟩ := Option.bind_eq_some_iff.1 hs'
    rw [Expr.bindingSorts?_eq_some] at hbs
    have hlen : us.length = vs.length := h.length_eq
    have hnames : us.map (·.1) = bs.map (·.1) := by
      clear hs hs' hbody' hbody h hlen
      induction hbs with
      | nil => rfl
      | cons hb _ ih => rw [List.map_cons, List.map_cons, hb.1, ih]
    have hsorts : List.Forall₂ (fun b t => b.1 = t.1 ∧ b.2.sort? Δ G' = some t.2) vs
        ((vs.map (·.1)).zip (bs.map (·.2))) := by
      clear hs hs' hbody' hbody hnames hlen
      induction hbs generalizing vs with
      | nil =>
        cases h
        exact .nil
      | cons hb _ ih =>
        obtain _ | ⟨hv, hrest⟩ := h
        exact .cons ⟨rfl, hv.sort hG hb.2⟩ (ih hrest)
    show (Expr.bindingSorts? Δ vs G').bind (fun bs => a'.sort? Δ (G'.bind bs)) = some s
    rw [Expr.bindingSorts?_eq_some.2 hsorts]
    refine hbody.sort ⟨G, G', bs.map (·.2), hG, ?_, ?_, rfl⟩ hbody'
    · rw [List.length_map, hnames, List.length_map]
    · rw [hnames, List.zip_map', List.map_id'']
      exact fun _ => rfl

/-- Quantifiers that bind variables of the same sorts. Triggers have no value, but a sort. -/
theorem quant {q : Quantifier} {us vs : List Binder} {ts ts' : List Trigger}
    (hsorts : us.map (·.2) = vs.map (·.2))
    (hts : ∀ {H H'}, (K.under (us.map (·.1)) (vs.map (·.1))).sorts H H' →
      a'.sort? Δ H' = some .bool → Expr.triggersSorted Δ ts H = true →
      Expr.triggersSorted Δ ts' H' = true)
    (h : Transfers Δ old (K.under (us.map (·.1)) (vs.map (·.1))) a a') :
    Transfers Δ old K (.quant q us ts a) (.quant q vs ts' a') where
  value {ρ ρ'} hρ := by
    have hmap (bs : List Binder) (as : List M.Val) :
        List.Forall₂ (fun b a => M.carrier b.2 a) bs as ↔
          List.Forall₂ M.carrier (bs.map (·.2)) as := List.forall₂_map_left_iff.symm
    have hcarrier (as : List M.Val) : List.Forall₂ (fun b a => M.carrier b.2 a) us as ↔
        List.Forall₂ (fun b a => M.carrier b.2 a) vs as := by rw [hmap, hmap, hsorts]
    have hbody {as : List M.Val} (has : List.Forall₂ (fun b a => M.carrier b.2 a) us as) :
        a'.eval old (Model.bind ((vs.map (·.1)).zip as) ρ') =
          a.eval old (Model.bind ((us.map (·.1)).zip as) ρ) :=
      h.value ⟨ρ, ρ', as, hρ, by simpa using has.length_eq.symm, rfl, rfl⟩
    cases q with
    | all =>
      rw [Expr.eval_all, Expr.eval_all]
      refine congrArg M.ofProp (propext ⟨?_, ?_⟩)
      · rintro hall _ ⟨as, has, rfl⟩
        exact hbody has ▸ hall _ ⟨as, (hcarrier as).1 has, rfl⟩
      · rintro hall _ ⟨as, has, rfl⟩
        exact (hbody ((hcarrier as).2 has)).symm ▸ hall _ ⟨as, (hcarrier as).2 has, rfl⟩
    | ex =>
      rw [Expr.eval_ex, Expr.eval_ex]
      refine congrArg M.ofProp (propext ⟨?_, ?_⟩)
      · rintro ⟨_, ⟨as, has, rfl⟩, htrue⟩
        exact ⟨_, ⟨as, (hcarrier as).2 has, rfl⟩, hbody ((hcarrier as).2 has) ▸ htrue⟩
      · rintro ⟨_, ⟨as, has, rfl⟩, htrue⟩
        exact ⟨_, ⟨as, (hcarrier as).1 has, rfl⟩, (hbody has).symm ▸ htrue⟩
  sort {G G' s} hG hs := by
    rw [Expr.sort?_quant_eq, Option.ite_none_right_eq_some] at hs ⊢
    obtain ⟨⟨hbody, htriggers⟩, hs⟩ := hs
    have hzip (bs : List Binder) : (bs.map (·.1)).zip (bs.map (·.2)) = bs := by
      rw [List.zip_map', List.map_id'' fun _ => rfl]
    have hunder : (K.under (us.map (·.1)) (vs.map (·.1))).sorts (G.bind us) (G'.bind vs) :=
      ⟨G, G', us.map (·.2), hG, by simp, by rw [hzip], by rw [hsorts, hzip]⟩
    have hbody' := h.sort hunder hbody
    exact ⟨⟨hbody', hts hunder hbody' htriggers⟩, hs⟩

theorem lambda {us vs : List Binder} (hsorts : us.map (·.2) = vs.map (·.2))
    (h : Transfers Δ old (K.under (us.map (·.1)) (vs.map (·.1))) a a') :
    Transfers Δ old K (.lambda us a) (.lambda vs a') where
  value {ρ ρ'} hρ := by
    have hlen : us.length = vs.length := by simpa using congrArg List.length hsorts
    rw [Expr.eval_lambda, Expr.eval_lambda]
    refine congrArg M.lam (funext fun as => ?_)
    rw [hlen]
    split
    · rename_i has
      exact h.value ⟨ρ, ρ', as, hρ, by simp [hlen, has], rfl, rfl⟩
    · rfl
  sort {G G' s} hG hs := by
    have hzip (bs : List Binder) : (bs.map (·.1)).zip (bs.map (·.2)) = bs := by
      rw [List.zip_map', List.map_id'' fun _ => rfl]
    obtain ⟨t, ht, rfl⟩ := Option.map_eq_some_iff.1
      (show (a.sort? Δ (G.bind us)).map (fun _ => Srt.lambda) = some s from hs)
    exact Expr.sort?_lambda (h.sort
      ⟨G, G', us.map (·.2), hG, by simp, by rw [hzip], by rw [hsorts, hzip]⟩ ht)

end Transfers

/-- Neither folding nor boxing looks into the expression. -/
def Expr.Inert (e : Expr) : Prop := e.Unfolded ∧ Boxing.applied? e = none

/-- The second expression says in the second scope what the first one says in the first, and looks
like it as far as folding and boxing look. -/
inductive Mirrors (Δ : Vocabulary) (old : M.Valuation) (K : Scopes M) : Expr → Expr → Prop
  | bool (b : Bool) : Mirrors Δ old K (.bool b) (.bool b)
  | app {g : String} {as as' : List Expr} (hlen : as.length = as'.length)
      (h : ∀ a a', (a, a') ∈ as.zip as' → Mirrors Δ old K a a') :
      Mirrors Δ old K (.app g as) (.app g as')
  | not {a a' : Expr} (h : Mirrors Δ old K a a') : Mirrors Δ old K (.not a) (.not a')
  | multi {op : MultiOp} {as as' : List Expr} (hlen : as.length = as'.length)
      (h : ∀ a a', (a, a') ∈ as.zip as' → Mirrors Δ old K a a') :
      Mirrors Δ old K (.multi op as) (.multi op as')
  | inert {a a' : Expr} (ha : a.Inert) (ha' : a'.Inert) (h : Transfers Δ old K a a') :
      Mirrors Δ old K a a'

namespace Mirrors

theorem forall₂_iff {R : Expr → Expr → Prop} : List.Forall₂ R as as' ↔
    as.length = as'.length ∧ ∀ a a', (a, a') ∈ as.zip as' → R a a' :=
  List.forall₂_iff_zip.trans (and_congr_right fun _ => ⟨fun h _ _ => h, fun h _ _ => h _ _⟩)

theorem transfers (h : Mirrors Δ old K a a') : Transfers Δ old K a a' := by
  induction h with
  | bool b => exact .bool b
  | app hlen _ ih => exact .app (forall₂_iff.2 ⟨hlen, ih⟩)
  | not _ ih => exact ih.not
  | multi hlen _ ih => exact .multi (forall₂_iff.2 ⟨hlen, ih⟩)
  | inert _ _ h => exact h

/-- What is said in some scopes is said in fewer. -/
theorem mono {K' : Scopes M} (hvalues : ∀ {ρ ρ'}, K'.values ρ ρ' → K.values ρ ρ')
    (hsorts : ∀ {G G'}, K'.sorts G G' → K.sorts G G') (h : Mirrors Δ old K a a') :
    Mirrors Δ old K' a a' := by
  induction h with
  | bool b => exact .bool b
  | app hlen _ ih => exact .app hlen ih
  | not _ ih => exact .not ih
  | multi hlen _ ih => exact .multi hlen ih
  | inert ha ha' h =>
    exact .inert ha ha' ⟨fun hρ => h.value (hvalues hρ), fun hG => h.sort (hsorts hG)⟩

theorem app' {g : String} (h : List.Forall₂ (Mirrors Δ old K) as as') :
    Mirrors Δ old K (.app g as) (.app g as') := by
  obtain ⟨hlen, h⟩ := forall₂_iff.1 h
  exact .app hlen h

theorem multi' {op : MultiOp} (h : List.Forall₂ (Mirrors Δ old K) as as') :
    Mirrors Δ old K (.multi op as) (.multi op as') := by
  obtain ⟨hlen, h⟩ := forall₂_iff.1 h
  exact .multi hlen h

theorem binary {op : BinOp} (ha : Mirrors Δ old K a a') (hb : Mirrors Δ old K b b') :
    Mirrors Δ old K (.binary op a b) (.binary op a' b') :=
  .inert ⟨trivial, rfl⟩ ⟨trivial, rfl⟩ (.binary ha.transfers hb.transfers)

theorem folding : Folding (Mirrors Δ old K) where
  head h := by
    cases h with
    | bool b => exact .bool b
    | app => exact .other trivial trivial
    | not h => exact .not h
    | multi hlen h => exact .multi (forall₂_iff.2 ⟨hlen, h⟩)
    | inert ha ha' => exact .other ha.1 ha'.1
  bool := .bool
  not := .not
  multi := multi'
  binary := .binary
  ite ha hb hc :=
    .inert ⟨trivial, rfl⟩ ⟨trivial, rfl⟩ (.ite ha.transfers hb.transfers hc.transfers)

theorem compatible : Compatible (Mirrors Δ old K) where
  bool := .bool
  num d := .inert ⟨trivial, rfl⟩ ⟨trivial, rfl⟩ (.num d)
  app := app'
  binary := .binary
  multi := multi'
  neg := folding.neg
  conj := folding.conj
  disj := folding.disj
  imp := folding.imp
  cond := folding.cond
  applied h := by
    cases h with
    | app hlen h => exact .app (forall₂_iff.2 ⟨hlen, h⟩)
    | inert ha ha' => exact .none ha.2 ha'.2
    | _ => exact .none rfl rfl

/-! ### Binders -/

/-- Where nothing is bound, the scopes stay. -/
theorem of_under_nil (h : Mirrors Δ old (K.under [] []) a a') : Mirrors Δ old K a a' :=
  h.mono (K := K.under [] []) (fun {ρ ρ'} hρ => ⟨ρ, ρ', [], hρ, rfl, rfl, rfl⟩)
    fun {G G'} hG => ⟨G, G', [], hG, rfl, rfl, rfl⟩

theorem lets {us vs : List (String × Expr)}
    (hvalues : List.Forall₂ (fun u v => Mirrors Δ old K u.2 v.2) us vs)
    (h : Mirrors Δ old (K.under (us.map (·.1)) (vs.map (·.1))) a a') :
    Mirrors Δ old K (.lets us a) (.lets vs a') := by
  cases hvalues with
  | nil => exact h.of_under_nil
  | cons hv hrest =>
    refine .inert ⟨trivial, rfl⟩ ⟨trivial, rfl⟩ (.letIn ?_ h.transfers)
    exact .cons hv.transfers (hrest.imp fun _ _ h => h.transfers)

theorem quantify {q : Quantifier} {us vs : List Binder} {ts ts' : List Trigger}
    (hsorts : us.map (·.2) = vs.map (·.2))
    (hts : ∀ {H H'}, (K.under (us.map (·.1)) (vs.map (·.1))).sorts H H' →
      a'.sort? Δ H' = some .bool → Expr.triggersSorted Δ ts H = true →
      Expr.triggersSorted Δ ts' H' = true)
    (h : Mirrors Δ old (K.under (us.map (·.1)) (vs.map (·.1))) a a') :
    Mirrors Δ old K (.quantify q us ts a) (.quantify q vs ts' a') := by
  cases us with
  | nil =>
    obtain rfl : vs = [] := List.map_eq_nil_iff.1 hsorts.symm
    exact h.of_under_nil
  | cons u us =>
    cases vs with
    | nil => simp at hsorts
    | cons v vs =>
      exact .inert ⟨trivial, rfl⟩ ⟨trivial, rfl⟩ (.quant hsorts hts h.transfers)

theorem triggersSorted {ts ts' : List Trigger}
    (hts : List.Forall₂ (List.Forall₂ (Mirrors Δ old K)) ts ts') {G G' : Sorts}
    (hG : K.sorts G G') (h : Expr.triggersSorted Δ ts G = true) :
    Expr.triggersSorted Δ ts' G' = true := by
  rw [Expr.triggersSorted_iff] at h ⊢
  induction hts with
  | nil => exact List.forall_mem_nil _
  | cons ht _ ih =>
    obtain ⟨hsome, hrest⟩ := List.forall_mem_cons.1 h
    refine List.forall_mem_cons.2 ⟨?_, ih hrest⟩
    obtain ⟨ss, hss⟩ := Option.isSome_iff_exists.1 hsome
    have hall := ht.imp fun _ _ h => Mirrors.transfers h
    rw [Expr.sorts?_eq_some.2 (Transfers.sorts hall hG (Expr.sorts?_eq_some.1 hss))]
    rfl

end Mirrors

/-! ## Scopes that lowered code does not tell apart -/

/-- The names that lowered code mentions on its own account mean the same in both scopes, and the
names that it binds may get any value. -/
structure Scopes.Fits (K : Scopes M) (env : Env) (v : View) : Prop where
  value : ∀ {x}, Reserved env v x → ∀ {ρ ρ'}, K.values ρ ρ' → ρ' x = ρ x
  sort : ∀ {x}, Reserved env v x → ∀ {G G'}, K.sorts G G' → G' x = G x
  update : ∀ {x}, Generated x → ∀ {ρ ρ'} (a : M.Val), K.values ρ ρ' →
    K.values (Function.update ρ x a) (Function.update ρ' x a)
  updateSort : ∀ {x}, Generated x → ∀ {G G'} (s : Srt), K.sorts G G' →
    K.sorts (Function.update G x (some s)) (Function.update G' x (some s))
  heap : ∃ x, v.heap = .var x
  oldHeap : ∃ x, v.oldHeap = .var x

namespace Scopes.Fits

variable {env : Env} {v : View} {xs ys : List String} {x y : String}

theorem past (h : K.Fits env v) : K.Fits env v.old where
  value hx := h.value hx.of_old
  sort hx := h.sort hx.of_old
  update := h.update
  updateSort := h.updateSort
  heap := h.oldHeap
  oldHeap := h.oldHeap

/-- A name that means the same in both scopes. -/
theorem mirrors_var (hvalue : ∀ {ρ ρ'}, K.values ρ ρ' → ρ' y = ρ x)
    (hsort : ∀ {G G'}, K.sorts G G' → G' y = G x) : Mirrors Δ old K (.var x) (.var y) :=
  .inert ⟨trivial, rfl⟩ ⟨trivial, rfl⟩ ⟨hvalue, fun hG hs => (hsort hG).trans hs⟩

theorem reserved (h : K.Fits env v) (hx : Reserved env v x) : Mirrors Δ old K (.var x) (.var x) :=
  mirrors_var (h.value hx) (h.sort hx)

/-- Below a name that lowered code binds. -/
theorem under_generated (h : K.Fits env v) (hx : Generated x) (ha : Mirrors Δ old K a a') :
    Mirrors Δ old (K.under [x] [x]) a a' := by
  refine ha.mono ?_ ?_
  · rintro _ _ ⟨ρ, ρ', vs, hρ, hlen, rfl, rfl⟩
    obtain ⟨w, rfl⟩ := List.length_eq_one_iff.1 hlen
    exact h.update hx w hρ
  · rintro _ _ ⟨G, G', ss, hG, hlen, rfl, rfl⟩
    obtain ⟨s, rfl⟩ := List.length_eq_one_iff.1 hlen
    exact h.updateSort hx s hG

theorem congruence (h : K.Fits env v) : Congruence env v v (Mirrors Δ old K) := by
  refine .of_reserved Mirrors.compatible h.reserved ?_ ?_ ?_ ?_
  · obtain ⟨x, hx⟩ := h.heap
    rw [hx]
    exact h.reserved (.heap (by simp [hx, Expr.names]))
  · obtain ⟨x, hx⟩ := h.oldHeap
    rw [hx]
    exact h.reserved (.oldHeap (by simp [hx, Expr.names]))
  · intro x s ts ts' a a' hx hts ha
    have hts' := hts.imp fun _ _ ht => ht.imp fun _ _ ht => h.under_generated hx ht
    exact .quantify rfl (fun hH _ => Mirrors.triggersSorted hts' hH) (h.under_generated hx ha)
  · intro a a' ha
    exact .inert ⟨trivial, rfl⟩ ⟨trivial, rfl⟩ (.lambda rfl (h.under_generated .box ha).transfers)

/-- Below binders that take no reserved name. -/
theorem under (h : K.Fits env v) (hlen : ys.length = xs.length)
    (hxs : ∀ x ∈ xs, ¬ Reserved env v x) (hys : ∀ y ∈ ys, ¬ Reserved env v y) :
    (K.under xs ys).Fits env v where
  value := by
    rintro x hx _ _ ⟨ρ, ρ', vs, hρ, hvs, rfl, rfl⟩
    rw [Model.bind_of_notMem fun hm => hys x ?_ hx, Model.bind_of_notMem fun hm => hxs x ?_ hx]
    · exact h.value hx hρ
    · rwa [List.map_fst_zip (by omega)] at hm
    · rwa [List.map_fst_zip (by omega)] at hm
  sort := by
    rintro x hx _ _ ⟨G, G', ss, hG, hss, rfl, rfl⟩
    rw [Sorts.bind_of_notMem fun hm => hys x ?_ hx, Sorts.bind_of_notMem fun hm => hxs x ?_ hx]
    · exact h.sort hx hG
    · rwa [List.map_fst_zip (by omega)] at hm
    · rwa [List.map_fst_zip (by omega)] at hm
  update := by
    rintro x hx _ _ a ⟨ρ, ρ', vs, hρ, hvs, rfl, rfl⟩
    refine ⟨_, _, vs, h.update hx a hρ, hvs, (Model.bind_update fun hm => ?_).symm,
      (Model.bind_update fun hm => ?_).symm⟩
    · exact hxs x (by rwa [List.map_fst_zip (by omega)] at hm) (.generated hx)
    · exact hys x (by rwa [List.map_fst_zip (by omega)] at hm) (.generated hx)
  updateSort := by
    rintro x hx _ _ s ⟨G, G', ss, hG, hss, rfl, rfl⟩
    refine ⟨_, _, ss, h.updateSort hx s hG, hss, (Sorts.bind_update fun hm => ?_).symm,
      (Sorts.bind_update fun hm => ?_).symm⟩
    · exact hxs x (by rwa [List.map_fst_zip (by omega)] at hm) (.generated hx)
    · exact hys x (by rwa [List.map_fst_zip (by omega)] at hm) (.generated hx)
  heap := h.heap
  oldHeap := h.oldHeap

end Scopes.Fits

end

end IL

end ContractLowering
