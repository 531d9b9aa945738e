import ContractLowering.Proofs.Lowering.Mirror
import ContractLowering.Proofs.Lowering.OtherViews
import ContractLowering.Proofs.Lowering.RelatedFacts
import ContractLowering.Proofs.Source.Arguments

/-!
# Lowering with variables replaced

Where a substitution replaces variables by expressions, lowered code says of their values what it
said of the variables: an expression with the substitution applied mirrors the expression itself
(`Source.WellTyped.mirrors_subst`). What is put in has to be lowered to the same term in every view
(`Portable`), since it may come to stand under `old`, and has to be no application of a box function
and no formula, since folding and boxing would look at it.
-/

namespace ContractLowering

open IL Source

/-! ## Names at the same place -/

/-- The value of a name that is bound is that at its last place. -/
theorem IL.Model.bind_lastIndex {M : Model} {names : List String} {vs : List M.Val}
    (hlen : vs.length = names.length) {x : String} {n : Nat} (hn : lastIndex names x = some n)
    (ρ : M.Valuation) : some (Model.bind (names.zip vs) ρ x) = vs[n]? := by
  induction names generalizing vs n ρ with
  | nil => simp [lastIndex] at hn
  | cons y names ih =>
    obtain ⟨v, vs, rfl⟩ := List.exists_cons_of_length_eq_add_one hlen
    have hlen : vs.length = names.length := by simpa using hlen
    rw [List.zip_cons_cons, Model.bind_cons]
    rw [lastIndex] at hn
    cases hrest : lastIndex names x with
    | some m =>
      simp only [hrest, Option.some.injEq] at hn
      subst hn
      exact ih hlen hrest _
    | none =>
      simp only [hrest, Option.ite_none_right_eq_some, Option.some.injEq] at hn
      obtain ⟨rfl, rfl⟩ := hn
      rw [Model.bind_of_notMem]
      · simp
      · rw [List.map_fst_zip hlen.ge]
        exact lastIndex_eq_none.1 hrest

/-- The sort of a name that is bound is that at its last place. -/
theorem IL.Sorts.bind_lastIndex {names : List String} {ss : List Srt}
    (hlen : ss.length = names.length) {x : String} {n : Nat} (hn : lastIndex names x = some n)
    (G : Sorts) : Sorts.bind (names.zip ss) G x = ss[n]? := by
  induction names generalizing ss n G with
  | nil => simp [lastIndex] at hn
  | cons y names ih =>
    obtain ⟨s, ss, rfl⟩ := List.exists_cons_of_length_eq_add_one hlen
    have hlen : ss.length = names.length := by simpa using hlen
    rw [List.zip_cons_cons, Sorts.bind_cons]
    rw [lastIndex] at hn
    cases hrest : lastIndex names x with
    | some m =>
      simp only [hrest, Option.some.injEq] at hn
      subst hn
      exact ih hlen hrest _
    | none =>
      simp only [hrest, Option.ite_none_right_eq_some, Option.some.injEq] at hn
      obtain ⟨rfl, rfl⟩ := hn
      rw [Sorts.bind_of_notMem]
      · simp
      · rw [List.map_fst_zip hlen.ge]
        exact lastIndex_eq_none.1 hrest

/-- Triggers are well sorted if their terms are. -/
theorem IL.Expr.triggersSorted_of_terms {Δ : Vocabulary} {G : Sorts} {ts : List Trigger}
    (h : ∀ t ∈ ts, ∀ e ∈ t, (e.sort? Δ G).isSome) : Expr.triggersSorted Δ ts G = true := by
  refine Expr.triggersSorted_iff.2 fun t ht => ?_
  have hterms := h t ht
  clear ht
  induction t with
  | nil => rfl
  | cons e t ih =>
    simp only [List.forall_mem_cons, Option.isSome_iff_exists] at hterms ih ⊢
    obtain ⟨⟨s, hs⟩, hrest⟩ := hterms
    obtain ⟨ss, hss⟩ := ih hrest
    exact ⟨s :: ss, by simp [Expr.sorts?, hs, hss]⟩

section

variable {M : Model} {Δ : Vocabulary} {old : M.Valuation} {K : Scopes M} {env : Env} {v : View}
  {xs ys : List String} {x y : String} {a : IL.Expr}

theorem IL.Mirrors.keepsTruth : KeepsTruth (Mirrors Δ old K) := by
  intro a a' h
  cases h with
  | inert ha ha' =>
    have htrue {e : IL.Expr} (he : e.Inert) : e.isTrue = false := by
      cases e <;> first | rfl | exact he.1.elim
    rw [htrue ha, htrue ha']
  | _ => rfl

theorem IL.Scopes.bindsAlike (K : Scopes M) (xs ys : List String) :
    BindsAlike (Mirrors Δ old K) (Mirrors Δ old (K.under xs ys)) xs ys where
  lets hnames hnames' hvalues ha := by
    subst hnames hnames'
    exact .lets hvalues ha
  quantify hnames hnames' hsorts hts ha := by
    subst hnames hnames'
    refine .quantify hsorts (fun hH ha' htriggers => ?_) ha
    cases hts with
    | given h => exact Mirrors.triggersSorted h hH htriggers
    | chosen => exact Expr.triggersSorted_of_terms (Expr.select_sorted (Option.isSome_of_mem ha'))

/-- Names that are bound at the same place mirror each other. -/
theorem IL.Mirrors.of_lastIndex (hplace : lastIndex ys y = lastIndex xs x) (hx : x ∈ xs)
    (hlen : ys.length = xs.length) : Mirrors Δ old (K.under xs ys) (.var x) (.var y) := by
  obtain ⟨n, hn⟩ := Option.ne_none_iff_exists'.1 (mt lastIndex_eq_none.1 (not_not.2 hx))
  have hn' := hplace.trans hn
  refine .inert ⟨trivial, rfl⟩ ⟨trivial, rfl⟩ ⟨?_, ?_⟩
  · rintro _ _ ⟨ρ, ρ', vs, -, hvs, rfl, rfl⟩
    rw [Expr.eval_var, Expr.eval_var]
    exact Option.some.inj ((Model.bind_lastIndex (hvs.trans hlen.symm) hn' ρ').trans
      (Model.bind_lastIndex hvs hn ρ).symm)
  · rintro _ _ s ⟨G, G', ss, -, hss, rfl, rfl⟩ hs
    exact ((Sorts.bind_lastIndex (hss.trans hlen.symm) hn' G').trans
      (Sorts.bind_lastIndex hss hn G).symm).trans hs

end

/-! ## What is put in -/

/-- An expression that is lowered to the same term in every view. The term depends on variables of
the expression only, leaves no facts behind, and is none that folding or boxing would look at. -/
structure Portable (Δ : Vocabulary) (env : Env) {M : Model} (old : M.Valuation) (r : Source.Expr)
    (a : IL.Expr) : Prop where
  lower : ∀ {v a'}, (lowerExpr v r).Returns env a' → a' = a
  facts : ∀ {v as}, (collect .facts v r).Returns env as → as = []
  inert : a.Inert
  value : ∀ {y}, y ∉ r.freeVars → ∀ (ρ : M.Valuation) (u : M.Val),
    a.eval old (Function.update ρ y u) = a.eval old ρ
  sort : ∀ {y}, y ∉ r.freeVars → ∀ (G : Sorts) (s : Option Srt),
    a.sort? Δ (Function.update G y s) = a.sort? Δ G

namespace Portable

variable {Δ : Vocabulary} {env : Env} {M : Model} {old : M.Valuation} {r : Source.Expr}
  {a : IL.Expr} {names : List String}

theorem var (i : Info) (x : String) : Portable Δ env old (.var i x) (.var x) where
  lower h := by simpa [lowerExpr] using h
  facts h := by simpa [collect] using h
  inert := ⟨trivial, rfl⟩
  value {y} hy ρ u := by
    have hne : x ≠ y := fun heq => hy (by simp [Expr.freeVars, heq])
    rw [Expr.eval_var, Expr.eval_var, Function.update_of_ne hne]
  sort {y} hy G s := by
    have hne : x ≠ y := fun heq => hy (by simp [Expr.freeVars, heq])
    exact Function.update_of_ne hne ..

theorem eval_bind (h : Portable Δ env old r a) (hnames : ∀ y ∈ r.freeVars, y ∉ names)
    (vs : List M.Val) (ρ : M.Valuation) :
    a.eval old (Model.bind (names.zip vs) ρ) = a.eval old ρ := by
  induction names generalizing vs ρ with
  | nil => rfl
  | cons x names ih =>
    cases vs with
    | nil => rfl
    | cons u vs =>
      rw [List.zip_cons_cons, Model.bind_cons, ih fun y hy hmem => hnames y hy (by simp [hmem]),
        h.value fun hx => hnames x hx (by simp)]

theorem sort_bind (h : Portable Δ env old r a) (hnames : ∀ y ∈ r.freeVars, y ∉ names)
    (ss : List Srt) (G : Sorts) : a.sort? Δ (G.bind (names.zip ss)) = a.sort? Δ G := by
  induction names generalizing ss G with
  | nil => rfl
  | cons x names ih =>
    cases ss with
    | nil => rfl
    | cons s ss =>
      rw [List.zip_cons_cons, Sorts.bind_cons, ih fun y hy hmem => hnames y hy (by simp [hmem]),
        h.sort fun hx => hnames x hx (by simp)]

/-- Below binders a variable is replaced as above, if neither it nor what is put in is bound. -/
theorem under {K : Scopes M} {xs : List String} {x : String} (h : Portable Δ env old r a)
    (hx : x ∉ xs) (hnames : ∀ y ∈ r.freeVars, y ∉ names)
    (ha : Mirrors Δ old K (.var x) a) : Mirrors Δ old (K.under xs names) (.var x) a := by
  refine .inert ⟨trivial, rfl⟩ h.inert ⟨?_, ?_⟩
  · rintro _ _ ⟨ρ, ρ', vs, hρ, hvs, rfl, rfl⟩
    rw [h.eval_bind hnames, ha.transfers.value hρ, Expr.eval_var, Expr.eval_var,
      Model.bind_of_notMem (by rwa [List.map_fst_zip hvs.ge])]
  · rintro _ _ s ⟨G, G', ss, hG, hss, rfl, rfl⟩ hs
    rw [h.sort_bind hnames]
    refine ha.transfers.sort hG (Eq.trans ?_ hs)
    exact (Sorts.bind_of_notMem (by rwa [List.map_fst_zip hss.ge])).symm

end Portable

/-! ## Substitutions -/

namespace Source.Subst

/-- What stands for a renamed binder has the type of the binder that is in force. -/
theorem typ_of_lookup_renames {clash avoid : List String} {span : Span} {bs : List Binder}
    {x : String} {r : Source.Expr} {map : List (String × Source.Expr)} (Γ : Typing)
    (hx : x ∈ bs.map (·.1)) (hclash : x ∈ clash)
    (hr : ((renameClashes clash span avoid bs).2.foldl bind map).lookup x = some r) :
    Γ.bind bs x = some r.typ := by
  induction bs generalizing avoid map Γ with
  | nil => simp at hx
  | cons b bs ih =>
    rw [Typing.bind_cons]
    by_cases hmem : x ∈ bs.map (·.1)
    · rw [renameClashes] at hr
      split at hr <;> exact ih _ hmem hr
    · obtain rfl : x = b.1 := by simpa [hmem] using hx
      rw [Typing.bind_of_notMem hmem, Function.update_self]
      have hlast : ∀ avoid,
          lastIndex ((renameClashes clash span avoid bs).2.map (·.1)) b.1 = none := by
        intro avoid
        refine lastIndex_eq_none.2 fun hkey => ?_
        obtain ⟨p, hp, hkey⟩ := List.mem_map.1 hkey
        obtain ⟨y, t, hb, -⟩ := exists_binder_of_rename hp
        exact hmem (hkey ▸ List.mem_map_of_mem (f := Prod.fst) hb)
      simp only [renameClashes, List.contains_eq_mem, hclash, decide_true, if_true,
        List.foldl_cons, lookup_foldl_lastIndex, hlast, lookup_bind, Option.some.injEq] at hr
      rw [← hr]
      rfl

/-- What stands for a bound variable in a scope has its type. -/
theorem typ_of_lookup_enter {s : Subst} {bs : List Binder} {first : Source.Expr}
    {others : List Source.Expr} {x : String} {r : Source.Expr} (Γ : Typing)
    (hx : x ∈ bs.map (·.1)) (hr : (s.enter bs first others).1.map.lookup x = some r) :
    Γ.bind bs x = some r.typ := by
  have hrestrict : (s.restrict (bs.map (·.1)) (first :: others)).map.lookup x = none := by
    rw [lookup_restrict, if_neg fun h => h.2 hx]
  rw [enter] at hr
  dsimp only at hr
  split at hr
  · simp [hrestrict] at hr
  · by_cases hclash : x ∈ (s.restrict (bs.map (·.1)) (first :: others)).valueVars
    · exact typ_of_lookup_renames Γ hx hclash hr
    · refine absurd hr ?_
      rw [(renamed_renameClashes first.span ?_ ?_).others x (.inl hclash), hrestrict]
      · simp
      · simp +contextual
      · exact fun b hb => by simp [List.mem_map_of_mem hb]

theorem receiver_enter {s : Subst} (h : s.receiver = none) (bs : List Binder) (first : Source.Expr)
    (others : List Source.Expr) : (s.enter bs first others).1.receiver = none := by
  rw [enter]
  dsimp only
  split <;> simp [restrict, h]

end Source.Subst

/-- Distinct names are at one place each. -/
theorem Source.lastIndex_of_nodup {xs : List String} (h : xs.Nodup) {n : Nat} {x : String}
    (hx : xs[n]? = some x) : lastIndex xs x = some n := by
  induction xs generalizing n with
  | nil => simp at hx
  | cons y xs ih =>
    obtain ⟨hy, h⟩ := List.nodup_cons.1 h
    cases n with
    | zero =>
      obtain rfl : y = x := by simpa using hx
      simp [lastIndex, lastIndex_eq_none.2 hy]
    | succ n => simp [lastIndex, ih h (by simpa using hx)]

theorem forall₂_of_getElem? {α β : Type} {R : α → β → Prop} {as : List α} {bs : List β}
    (hlen : as.length = bs.length)
    (h : ∀ (n : Nat) (a : α) (b : β), as[n]? = some a → bs[n]? = some b → R a b) :
    List.Forall₂ R as bs :=
  List.forall₂_iff_get.2 ⟨hlen, fun n hn hn' => h n _ _ (List.getElem?_eq_getElem hn)
    (List.getElem?_eq_getElem hn')⟩

/-- What a substitution puts in for free variables of an expression has their types and mirrors
them, and what it leaves alone mirrors itself. -/
structure Replaces (Δ : Vocabulary) (env : Env) {M : Model} (old : M.Valuation) (K : Scopes M)
    (Γ : Typing) (s : Subst) (e : Source.Expr) : Prop where
  receiver : s.receiver = none
  kept : ∀ x ∈ e.freeVars, s.map.lookup x = none → Mirrors Δ old K (.var x) (.var x)
  replaced : ∀ x ∈ e.freeVars, ∀ r ∈ s.map.lookup x, Γ x = some r.typ ∧
    ∃ a, Portable Δ env old r a ∧ Mirrors Δ old K (.var x) a

namespace Replaces

variable {Δ : Vocabulary} {env : Env} {v : View} {M : Model} {old : M.Valuation} {K : Scopes M}
  {Γ : Typing} {s : Subst} {e d : Source.Expr}

/-- In parts where nothing is bound, the same is replaced. -/
theorem plain (h : Replaces Δ env old K Γ s e) (hd : ([], d) ∈ e.parts) :
    Replaces Δ env old K Γ s d where
  receiver := h.receiver
  kept x hx := h.kept x (Expr.mem_freeVars.2 (.inr ⟨_, hd, hx, by simp⟩))
  replaced x hx := h.replaced x (Expr.mem_freeVars.2 (.inr ⟨_, hd, hx, by simp⟩))

/-- Below binders bound variables are kept or replaced by the names that they get. -/
theorem below (h : Replaces Δ env old K Γ s e) (bs : List Source.Binder) (first : Source.Expr)
    (others : List Source.Expr) (hd : d ∈ first :: others) (hpart : (bs.map (·.1), d) ∈ e.parts) :
    Replaces Δ env old (K.under (bs.map (·.1)) (s.enter bs first others).2) (Γ.bind bs)
      (s.enter bs first others).1 d := by
  have ho := s.enter_opens bs first others
  have hfree {x : String} (hx : x ∈ d.freeVars) (hbound : x ∉ bs.map (·.1)) : x ∈ e.freeVars :=
    Expr.mem_freeVars.2 (.inr ⟨_, hpart, hx, hbound⟩)
  refine ⟨Subst.receiver_enter h.receiver bs first others, fun x hx hnone => ?_,
    fun x hx r hr => ?_⟩
  · by_cases hbound : x ∈ bs.map (·.1)
    · rcases ho.inside x hbound with ⟨-, hplace⟩ | ⟨i, y, hsome, -⟩
      · exact .of_lastIndex hplace hbound ho.length
      · simp [hnone] at hsome
    · obtain ⟨hname, hlookup⟩ := ho.outside d hd x hx hbound
      have hself : Portable Δ env old (.var default x) (.var x) := .var _ x
      exact hself.under hbound (by simpa [Expr.freeVars] using hname)
        (h.kept x (hfree hx hbound) (hlookup.symm.trans hnone))
  · by_cases hbound : x ∈ bs.map (·.1)
    · refine ⟨Subst.typ_of_lookup_enter Γ hbound hr, ?_⟩
      rcases ho.inside x hbound with ⟨hnone, -⟩ | ⟨i, y, hsome, hplace⟩
      · simp [hnone] at hr
      · obtain rfl := Option.mem_unique hr hsome
        exact ⟨_, .var i y, .of_lastIndex hplace hbound ho.length⟩
    · obtain ⟨-, hlookup⟩ := ho.outside d hd x hx hbound
      obtain ⟨htyp, a, ha, hmirrors⟩ := h.replaced x (hfree hx hbound) r (hlookup ▸ hr)
      exact ⟨(Typing.bind_of_notMem hbound).trans htyp, a, ha,
        ha.under hbound (ho.apart x hbound r hr) hmirrors⟩

/-- Binders get names that are not reserved. -/
theorem fits {P : String → Prop} (hP : ∀ x n, P x → P (Naming.renamed x n))
    (hapart : ∀ x, P x → ¬ Reserved env v x) (hK : K.Fits env v) (hbs : ∀ b ∈ bs, P b.1)
    (s : Subst) (first : Source.Expr) (others : List Source.Expr) :
    (K.under (bs.map (·.1)) (s.enter bs first others).2).Fits env v := by
  refine hK.under (by simpa using s.length_enter bs first others) ?_ ?_
  · exact List.forall_mem_map.2 fun b hb => hapart _ (hbs b hb)
  · exact fun y hy => hapart y (Subst.forall_names_enter hP hbs first others y hy)

/-- The scopes below binders. -/
theorem enters {P : String → Prop} (hP : ∀ x n, P x → P (Naming.renamed x n))
    (hapart : ∀ x, P x → ¬ Reserved env v x) (hK : K.Fits env v) (hbs : ∀ b ∈ bs, P b.1)
    (s : Subst) (first : Source.Expr) (others : List Source.Expr) :
    Enters env v v (Mirrors Δ old K)
      (Mirrors Δ old (K.under (bs.map (·.1)) (s.enter bs first others).2)) bs
      (Subst.rebind bs (s.enter bs first others).2) := by
  have hlen := s.length_enter bs first others
  refine ⟨Subst.rebind_types hlen, ?_, (fits hP hapart hK hbs s first others).congruence⟩
  rw [Subst.rebind_names hlen]
  exact K.bindsAlike _ _

theorem entersWhere {P : String → Prop} (hP : ∀ x n, P x → P (Naming.renamed x n))
    (hapart : ∀ x, P x → ¬ Reserved env v x) (hK : K.Fits env v) (hbs : ∀ b ∈ bs, P b.1)
    (hnodup : (bs.map (·.1)).Nodup) (s : Subst) (first : Source.Expr)
    (others : List Source.Expr) :
    EntersWhere env v v (Mirrors Δ old K)
      (Mirrors Δ old (K.under (bs.map (·.1)) (s.enter bs first others).2)) bs
      (Subst.rebind bs (s.enter bs first others).2) := by
  have hlen := s.length_enter bs first others
  have hnames := Subst.rebind_names hlen
  have htypes := Subst.rebind_types hlen
  have hnodup' : (s.enter bs first others).2.Nodup := Subst.nodup_enter hnodup
  refine ⟨enters hP hapart hK hbs s first others, forall₂_of_getElem? ?_ fun n b b' hb hb' => ?_⟩
  · simpa [hlen] using (congrArg List.length hnames).symm
  have hplace : (bs.map (·.1))[n]? = some b.1 := by rw [List.getElem?_map, hb]; rfl
  have hplace' : (s.enter bs first others).2[n]? = some b'.1 := by
    rw [← hnames, List.getElem?_map, hb']; rfl
  refine ⟨?_, .of_lastIndex ?_ (List.mem_of_getElem? hplace) (by simpa using hlen)⟩
  · have htype := congrArg (·[n]?) htypes
    simpa [hb, hb'] using htype
  · rw [lastIndex_of_nodup hnodup hplace, lastIndex_of_nodup hnodup' hplace']

end Replaces

/-! ## Expressions -/

theorem option_rel_map {α β : Type} {R : α → β → Prop} {f : α → β} {o : Option α}
    (h : ∀ a ∈ o, R a (f a)) : Option.Rel R o (o.map f) := by
  cases o with
  | none => exact .none
  | some a => exact .some (h a rfl)

theorem forall₂_map_self {α β : Type} {R : α → β → Prop} {f : α → β} {l : List α}
    (h : ∀ a ∈ l, R a (f a)) : List.Forall₂ R l (l.map f) :=
  List.forall₂_map_right_iff.2 (List.forall₂_same.2 h)

/-- Whether a set comprehension collects its variable is seen after a substitution. -/
theorem Source.Subst.Opens.collectsBinder {s inner : Subst} {scope : List Source.Expr}
    {x y : String} (ho : Subst.Opens s [x] scope inner [y]) (hreceiver : inner.receiver = none)
    {t : Option Source.Expr} (ht : ∀ d ∈ t, d ∈ scope) :
    collectsBinder y (t.map (Expr.subst inner)) = collectsBinder x t := by
  have hlast {a b : String} (h : lastIndex [a] b = lastIndex [x] x) : a = b := by
    simpa [lastIndex] using h
  rcases t with _ | t
  · rfl
  cases t with
  | var j z =>
    rw [Option.map_some, Expr.subst_var]
    by_cases hz : x = z
    · subst hz
      rcases ho.inside x (by simp) with ⟨hnone, hplace⟩ | ⟨k, w, hsome, hplace⟩
      · simp [hnone, ContractLowering.collectsBinder, hlast hplace]
      · simp [hsome, ContractLowering.collectsBinder, hlast hplace]
    · have hbound : z ∉ [x] := by simpa using Ne.symm hz
      obtain ⟨hname, -⟩ := ho.outside _ (ht _ rfl) z (Expr.mem_freeVars_self j z) hbound
      have hne : y ≠ z := fun heq => hname (by simp [heq])
      cases hl : inner.map.lookup z with
      | none => simp [ContractLowering.collectsBinder, hz, hne]
      | some a =>
        have hapart := ho.apart z hbound a hl
        cases a with
        | var k w =>
          have hne' : y ≠ w := by simpa [Expr.freeVars, eq_comm] using hapart
          simp [ContractLowering.collectsBinder, hz, hne']
        | _ => simp [ContractLowering.collectsBinder, hz]
  | this j =>
    rw [Option.map_some, Expr.subst_this, hreceiver]
    rfl
  | quant => rw [Option.map_some, Expr.subst_quant]; rfl
  | setComp i bs r t =>
    obtain ⟨t', heq, -⟩ := Expr.setComp_subst_eq inner i bs r t
    rw [Option.map_some, heq]
    rfl
  | mapComp => rw [Option.map_some, Expr.subst_mapComp]; rfl
  | letIn => rw [Option.map_some, Expr.subst_letIn]; rfl
  | _ => simp [ContractLowering.collectsBinder]

section

variable {Δ : Vocabulary} {env : Env} {M : Model} {old : M.Valuation} {D : Discipline}
  {hasThis : Bool} {Γ : Typing} {e : Source.Expr}

/-- An expression with a substitution applied mirrors the expression, if what is put in mirrors what
it replaces. -/
theorem Source.WellTyped.mirrors_subst (h : WellTyped env.context D hasThis Γ e)
    (hD : ∀ x n, D.binder x → D.binder (Naming.renamed x n)) : ∀ {v : View} {K : Scopes M}
    {s : Subst}, (∀ x, D.binder x → ¬ Reserved env v x) → K.Fits env v →
    Replaces Δ env old K Γ s e → RelatedFacts env v (Mirrors Δ old K) e (e.subst s) := by
  induction h with
  | bool => exact fun _ hK _ => .bool hK.congruence rfl _
  | int => exact fun _ hK _ => .int hK.congruence rfl _
  | null => exact fun _ hK _ => .null hK.congruence rfl
  | @var Γ i x htyp =>
    intro v K s _ hK hs
    rw [Expr.subst_var]
    cases hx : s.map.lookup x with
    | none => exact .var rfl (hs.kept x (Expr.mem_freeVars_self i x) hx)
    | some r =>
      obtain ⟨ht, a, ha, hmirrors⟩ := hs.replaced x (Expr.mem_freeVars_self i x) r hx
      refine ⟨⟨Option.some.inj (ht.symm.trans htyp), fun hb hb' => ?_⟩, fun bs bs' hb hb' => ?_⟩
      · simp only [lowerExpr, ExprM.returns_pure] at hb
        rw [hb, ha.lower hb']
        exact hmirrors
      · simp only [collect, ExprM.returns_pure] at hb
        rw [hb, ha.facts hb']
        exact .nil
  | this =>
    intro v K s _ hK hs
    rw [Expr.subst_this, hs.receiver]
    exact .this hK.congruence rfl
  | field _ _ _ _ ih =>
    intro v K s hv hK hs
    rw [Expr.subst_field]
    exact .field hK.congruence rfl (ih hv hK (hs.plain (by simp [Expr.parts])))
  | index _ _ _ iha ihb =>
    intro v K s hv hK hs
    rw [Expr.subst_index]
    exact .index hK.congruence rfl (iha hv hK (hs.plain (by simp [Expr.parts])))
      (ihb hv hK (hs.plain (by simp [Expr.parts])))
  | slice _ _ _ _ _ _ ih ihlo ihhi =>
    intro v K s hv hK hs
    rw [Expr.subst_slice]
    refine .slice hK.congruence rfl (ih hv hK (hs.plain (by simp [Expr.parts])))
      (option_rel_map fun a ha => ihlo a ha hv hK (hs.plain ?_))
      (option_rel_map fun a ha => ihhi a ha hv hK (hs.plain ?_))
    · simp [Expr.parts, Option.mem_def.1 ha]
    · simp [Expr.parts, Option.mem_def.1 ha]
  | update _ _ _ _ _ iha ihb ihc =>
    intro v K s hv hK hs
    rw [Expr.subst_update]
    exact .update hK.congruence rfl (iha hv hK (hs.plain (by simp [Expr.parts])))
      (ihb hv hK (hs.plain (by simp [Expr.parts]))) (ihc hv hK (hs.plain (by simp [Expr.parts])))
  | arrayLength _ _ _ ih =>
    intro v K s hv hK hs
    rw [Expr.subst_arrayLength]
    exact .arrayLength hK.congruence rfl (ih hv hK (hs.plain (by simp [Expr.parts])))
  | display _ _ _ ih =>
    intro v K s hv hK hs
    rw [Expr.subst_display]
    exact .display hK.congruence rfl (forall₂_map_self fun a ha =>
      ih a ha hv hK (hs.plain (by simp [Expr.parts, ha])))
  | mapDisplay _ _ _ _ ihk ihv =>
    intro v K s hv hK hs
    rw [Expr.subst_mapDisplay]
    refine .mapDisplay hK.congruence rfl (forall₂_map_self fun p hp =>
      ⟨ihk p hp hv hK (hs.plain ?_), ihv p hp hv hK (hs.plain ?_)⟩)
    · exact List.mem_append_left _ (List.mem_map.2 ⟨p, hp, rfl⟩)
    · exact List.mem_append_right _ (List.mem_map.2 ⟨p, hp, rfl⟩)
  | ctor _ _ _ _ _ ih =>
    intro v K s hv hK hs
    rw [Expr.subst_ctor]
    exact .ctor hK.congruence rfl (forall₂_map_self fun a ha =>
      ih a ha hv hK (hs.plain (by simp [Expr.parts, ha])))
  | destruct _ _ _ _ _ _ ih =>
    intro v K s hv hK hs
    rw [Expr.subst_destruct]
    exact .destruct hK.congruence rfl (ih hv hK (hs.plain (by simp [Expr.parts])))
  | isCtor _ _ _ _ _ ih =>
    intro v K s hv hK hs
    rw [Expr.subst_isCtor]
    exact .isCtor hK.congruence rfl (ih hv hK (hs.plain (by simp [Expr.parts])))
  | old _ _ ih =>
    intro v K s hv hK hs
    rw [Expr.subst_old]
    exact .old rfl (ih (fun x hx hr => hv x hx hr.of_old) hK.past
      (hs.plain (by simp [Expr.parts])))
  | fresh _ _ _ ih =>
    intro v K s hv hK hs
    rw [Expr.subst_fresh]
    exact .fresh hK.congruence rfl (ih hv hK (hs.plain (by simp [Expr.parts])))
  | unary _ _ ih =>
    intro v K s hv hK hs
    rw [Expr.subst_unary]
    exact .unary hK.congruence rfl (ih hv hK (hs.plain (by simp [Expr.parts])))
  | binary _ _ _ iha ihb =>
    intro v K s hv hK hs
    rw [Expr.subst_binary]
    exact .binary hK.congruence rfl Mirrors.keepsTruth
      (iha hv hK (hs.plain (by simp [Expr.parts]))) (ihb hv hK (hs.plain (by simp [Expr.parts])))
  | @quant Γ i q bs r e ts ind hnodup hbs _ _ _ _ _ ihr ihe ihts =>
    intro v K s hv hK hs
    have hnames : ∀ b ∈ bs, D.binder b.1 := fun b hb => (hbs b hb).1
    have hinner := Replaces.fits hD hv hK hnames s e (r.toList ++ ts.flatten)
    have hbelow {d : Source.Expr} (hd : d ∈ e :: (r.toList ++ ts.flatten)) :=
      hs.below bs e _ hd (List.mem_map_of_mem hd)
    rw [Expr.subst_quant]
    refine .quant hK.congruence rfl Mirrors.keepsTruth Mirrors.keepsTruth
      (Replaces.entersWhere hD hv hK hnames hnodup s e (r.toList ++ ts.flatten))
      (option_rel_map fun a ha => ihr a ha hv hinner (hbelow ?_))
      (ihe hv hinner (hbelow List.mem_cons_self))
      (forall₂_map_self fun t ht => forall₂_map_self fun a ha =>
        (ihts t ht a ha hv hinner (hbelow ?_)).toRelated)
    · simp [Option.mem_def.1 ha]
    · exact List.mem_cons_of_mem _ (List.mem_append_right _ (List.mem_flatten_of_mem ht ha))
  | @setComp Γ i bs r t elem hnodup hbs _ _ hterm _ _ _ ihr iht =>
    intro v K s hv hK hs
    have hnames : ∀ b ∈ bs, D.binder b.1 := fun b hb => (hbs b hb).1
    have hinner := Replaces.fits hD hv hK hnames s r t.toList
    have hbelow {d : Source.Expr} (hd : d ∈ r :: t.toList) :=
      hs.below bs r _ hd (List.mem_map_of_mem hd)
    have hscope : EntersWhere env v v (Mirrors Δ old K) (Mirrors Δ old (K.under _ _)) bs _ :=
      Replaces.entersWhere hD hv hK hnames hnodup s r t.toList
    have hrange := ihr hv hinner (hbelow List.mem_cons_self)
    have hreceiver := Subst.receiver_enter hs.receiver bs r t.toList
    have ho := s.enter_opens bs r t.toList
    obtain ⟨t', heq, ht'⟩ := Expr.setComp_subst_eq s i bs r t
    rw [heq]
    refine .setComp hK.congruence rfl Mirrors.keepsTruth Mirrors.keepsTruth hscope ?_ hrange ?_
    · rintro b b' rfl hb'
      have hnames' := congrArg (List.map (·.1)) hb'
      rw [Subst.rebind_names (s.length_enter ..)] at hnames'
      rw [hnames'] at ho
      rcases ht' with rfl | ⟨rfl, j, x, xs, hxs, rfl, -⟩
      · exact (ho.collectsBinder hreceiver fun d hd => by simp [Option.mem_def.1 hd]).symm
      · obtain rfl : b'.1 = x := (List.cons.inj (hnames'.symm.trans hxs)).1
        simp [collectsBinder]
    · rcases ht' with rfl | ⟨rfl, j, x, -, -, rfl, -⟩
      · exact .inl (option_rel_map fun d hd => iht d hd hv hinner (hbelow (by
          simp [Option.mem_def.1 hd])))
      · exact .inr ⟨rfl, j, x, rfl⟩
  | @mapComp Γ i b r t key value hb _ _ _ _ _ ihr iht =>
    intro v K s hv hK hs
    have hnames : ∀ d ∈ [b], D.binder d.1 := List.forall_mem_singleton.2 hb.1
    have hinner := Replaces.fits hD hv hK hnames s r [t]
    have hbelow {d : Source.Expr} (hd : d ∈ [r, t]) :=
      hs.below [b] r _ hd (List.mem_map.2 ⟨d, hd, rfl⟩)
    have hscope : EntersWhere env v v (Mirrors Δ old K) (Mirrors Δ old (K.under _ _)) [b] _ :=
      Replaces.entersWhere hD hv hK hnames (by simp) s r [t]
    obtain ⟨x, hx⟩ := List.length_eq_one_iff.1 (s.length_enter [b] r [t])
    have hrebind : Subst.rebind [b] [x] = [(x, b.2)] := rfl
    rw [Expr.subst_mapComp]
    dsimp only
    rw [hx, hrebind] at hscope
    rw [hx, List.headD_cons]
    rw [hx] at hinner hbelow
    exact .mapComp hK.congruence rfl Mirrors.keepsTruth Mirrors.keepsTruth hscope
      (ihr hv hinner (hbelow (by simp))) (iht hv hinner (hbelow (by simp)))
  | @letIn Γ i bs e hnames _ _ _ ihbs ih =>
    intro v K s hv hK hs
    have hpairs : (bs.map fun p => (p.1, p.2.typ)).map (·.1) = bs.map (·.1) := by simp
    have hnames : ∀ b ∈ bs.map fun p => (p.1, p.2.typ), D.binder b.1 :=
      List.forall_mem_map.2 hnames
    have hinner := Replaces.fits hD hv hK hnames s e []
    have hbody := hs.below (bs.map fun p => (p.1, p.2.typ)) e [] List.mem_cons_self (by
      simp [Expr.parts])
    have hlen := s.length_enter (bs.map fun p => (p.1, p.2.typ)) e []
    rw [hpairs] at hinner hbody
    rw [Expr.subst_letIn]
    dsimp only
    generalize s.enter (bs.map fun p => (p.1, p.2.typ)) e [] = scope at *
    have hlen : scope.2.length = bs.length := by simpa using hlen
    refine .letIn hK.congruence rfl Mirrors.keepsTruth Mirrors.keepsTruth ?_ ?_ (ih hv hinner hbody)
    · rw [List.map_fst_zip (by simp [hlen])]
      exact K.bindsAlike _ _
    · exact forall₂_zip_map hlen fun p hp => ihbs p hp hv hK (hs.plain (by
        simpa [Expr.parts] using .inr ⟨_, hp⟩))
  | ite _ _ _ _ _ iha ihb ihc =>
    intro v K s hv hK hs
    rw [Expr.subst_ite]
    exact .ite hK.congruence rfl Mirrors.keepsTruth
      (iha hv hK (hs.plain (by simp [Expr.parts]))) (ihb hv hK (hs.plain (by simp [Expr.parts])))
      (ihc hv hK (hs.plain (by simp [Expr.parts])))
  | @cases Γ i e arms dt ts d hd hvalue _ hpatterns hnames _ _ _ ihe iharms =>
    intro v K s hv hK hs
    rw [Expr.subst_cases]
    refine .cases hK.congruence Mirrors.keepsTruth rfl (ihe hv hK (hs.plain (by simp [Expr.parts])))
      fun hdt hd' => forall₂_map_self fun p hp => ?_
    obtain ⟨rfl, -⟩ := Typ.datatype.inj (hvalue.symm.trans hdt)
    obtain rfl := Except.ok.inj (hd.symm.trans hd')
    obtain ⟨k, hk, hfits⟩ := hpatterns p hp
    refine ⟨rfl, fun hk' => ?_, _, Replaces.enters hD hv hK (hnames p hp) s p.2 [],
      Mirrors.keepsTruth, iharms p hp hv (Replaces.fits hD hv hK (hnames p hp) s p.2 [])
        (hs.below p.1.binders p.2 [] List.mem_cons_self ?_)⟩
    · obtain rfl := Except.ok.inj (hk.symm.trans hk')
      exact hfits.length_eq.le
    · exact List.mem_cons_of_mem _ (List.mem_map.2 ⟨p, hp, rfl⟩)
  | call _ _ _ _ _ _ _ ihr ihes =>
    intro v K s hv hK hs
    rw [Expr.subst_call]
    refine .call hK.congruence rfl (option_rel_map fun a ha => ihr a ha hv hK (hs.plain ?_))
      (forall₂_map_self fun a ha => ihes a ha hv hK (hs.plain ?_))
    · simp [Expr.parts, Option.mem_def.1 ha]
    · simp [Expr.parts, ha]

end

end ContractLowering
