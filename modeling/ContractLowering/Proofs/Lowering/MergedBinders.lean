import ContractLowering.Proofs.Lowering.Replaced

/-!
# Merged binders

Where a formal is replaced by an expression over other variables, these are bound together with the
other formals. What is said there is compared with what was said of the formals, and with what was
said where the variables are bound below them (`IL.Scopes.sorts_merged`, `IL.Scopes.values_merged`).
Names may repeat in merged binders, if they have one sort.
-/

namespace ContractLowering

open IL Source

/-! ## Binders of one name -/

namespace IL

variable {M : Model} {bs : List Binder} {b : Binder} {G G' : Sorts} {x : String}
  {ρ ρ' : M.Valuation}

/-- A name that is bound has a sort that does not depend on what it was before. -/
theorem Sorts.bind_of_mem (h : x ∈ bs.map (·.1)) : G.bind bs x = G'.bind bs x := by
  induction bs generalizing G G' with
  | nil => simp at h
  | cons b bs ih =>
    rw [Sorts.bind_cons, Sorts.bind_cons]
    by_cases hmem : x ∈ bs.map (·.1)
    · exact ih hmem
    · obtain rfl : x = b.1 := by simpa [hmem] using h
      rw [Sorts.bind_of_notMem hmem, Sorts.bind_of_notMem hmem, Function.update_self,
        Function.update_self]

/-- Binders of one name have one sort. -/
def Coherent (bs : List Binder) : Prop := ∀ b ∈ bs, ∀ c ∈ bs, b.1 = c.1 → b.2 = c.2

theorem Coherent.sort (h : Coherent bs) (hb : b ∈ bs) : G.bind bs b.1 = some b.2 := by
  induction bs generalizing G b with
  | nil => cases hb
  | cons c bs ih =>
    have hrest : Coherent bs := fun b hb c hc => h b (by simp [hb]) c (by simp [hc])
    rw [Sorts.bind_cons]
    by_cases hmem : b.1 ∈ bs.map (·.1)
    · obtain ⟨d, hd, heq⟩ := List.mem_map.1 hmem
      rw [← heq, ih hrest hd, h d (by simp [hd]) b hb heq]
    · obtain rfl : b = c := (List.mem_cons.1 hb).resolve_right fun hb =>
        hmem (List.mem_map_of_mem hb)
      rw [Sorts.bind_of_notMem hmem, Function.update_self]

/-- Binders of which those of one name have one sort get values of their sorts. -/
theorem Coherent.carrier (h : Coherent bs) (hρ : Model.Assigns bs ρ ρ') (hb : b ∈ bs) :
    M.carrier b.2 (ρ' b.1) :=
  Model.Respects.assigns (G := fun _ => none) nofun hρ _ _ (h.sort hb)

/-- A valuation that differs from another one at bound names only, and has values of their sorts
there, gives values to the binders. -/
theorem Model.Assigns.of_carrier (h : ∀ b ∈ bs, M.carrier b.2 (ρ' b.1))
    (hsame : ∀ x ∉ bs.map (·.1), ρ' x = ρ x) : Model.Assigns bs ρ ρ' := by
  obtain ⟨as, has, heq⟩ := Model.Assigns.self h
  have hnames : ((bs.map (·.1)).zip as).map (·.1) = bs.map (·.1) :=
    List.map_fst_zip (by simp [has.length_eq])
  refine ⟨as, has, funext fun x => ?_⟩
  rw [heq]
  by_cases hx : x ∈ bs.map (·.1)
  · exact Model.bind_of_mem (by rwa [hnames])
  · rw [Model.bind_of_notMem (by rwa [hnames]), Model.bind_of_notMem (by rwa [hnames]), hsame x hx]

/-- Names that get the values they have elsewhere. -/
theorem Model.bind_map {α : Type} {l : List α} {name : α → String} :
    Model.bind (l.map fun a => (name a, ρ' (name a))) ρ x =
      if x ∈ l.map name then ρ' x else ρ x := by
  induction l generalizing ρ with
  | nil => simp
  | cons a l ih =>
    rw [List.map_cons, Model.bind_cons, ih]
    by_cases hl : x ∈ l.map name
    · simp [hl]
    · by_cases hx : x = name a
      · subst hx
        simp [hl]
      · simp [hl, hx]

end IL

/-! ## Replaced variables -/

/-- Scopes of which the first one gives a variable the meaning that an expression has in the second
one. Other names mean the same, of those that are looked at. -/
def IL.Scopes.replacing {M : Model} (Δ : Vocabulary) (old : M.Valuation) (Q : String → Prop)
    (x : String) (w : IL.Expr) : Scopes M where
  values ρ ρ' := ∀ z, Q z → ρ z = if z = x then w.eval old ρ' else ρ' z
  sorts G G' := ∀ z, Q z → G z = if z = x then w.sort? Δ G' else G' z

section

variable {M : Model} {Δ : Vocabulary} {old : M.Valuation} {env : Env} {v : View}
  {Q : String → Prop} {x z : String} {w : IL.Expr} {r e : Source.Expr} {Γ : Typing}

/-- Lowered code does not tell the scopes apart but by the variable. -/
theorem IL.Scopes.replacing_fits (hr : Portable Δ env old r w) (hx : ¬ Reserved env v x)
    (hvars : ∀ y ∈ r.freeVars, ¬ Reserved env v y) (hQ : ∀ y, Reserved env v y → Q y)
    (hheap : ∃ y, v.heap = .var y) (hold : ∃ y, v.oldHeap = .var y) :
    (Scopes.replacing (M := M) Δ old Q x w).Fits env v where
  value {y} hy {ρ ρ'} hρ := by
    have hne : y ≠ x := by
      rintro rfl
      exact hx hy
    rw [hρ y (hQ y hy), if_neg hne]
  sort {y} hy {G G'} hG := by
    have hne : y ≠ x := by
      rintro rfl
      exact hx hy
    rw [hG y (hQ y hy), if_neg hne]
  update {y} hy {ρ ρ'} a hρ := by
    intro z hz
    have hne : x ≠ y := by
      rintro rfl
      exact hx (.generated hy)
    rw [hr.value fun hmem => hvars y hmem (.generated hy)]
    by_cases hzy : z = y
    · subst hzy
      simp [Ne.symm hne]
    · rw [Function.update_of_ne hzy, Function.update_of_ne hzy, hρ z hz]
  updateSort {y} hy {G G'} s hG := by
    intro z hz
    have hne : x ≠ y := by
      rintro rfl
      exact hx (.generated hy)
    rw [hr.sort fun hmem => hvars y hmem (.generated hy)]
    by_cases hzy : z = y
    · subst hzy
      simp [Ne.symm hne]
    · rw [Function.update_of_ne hzy, Function.update_of_ne hzy, hG z hz]
  heap := hheap
  oldHeap := hold

theorem IL.Mirrors.holds_iff {K : Scopes M} {a a' : IL.Expr} (h : Mirrors Δ old K a a')
    {ρ ρ' : M.Valuation} (hρ : K.values ρ ρ') : Holds old ρ' a' ↔ Holds old ρ a := by
  rw [Holds, Holds, h.transfers.value hρ]

theorem IL.Mirrors.replaced (hw : w.Inert) (hQ : Q x) :
    Mirrors Δ old (Scopes.replacing Δ old Q x w) (.var x) w := by
  refine .inert ⟨trivial, rfl⟩ hw ⟨fun {ρ ρ'} hρ => ?_, fun {G G' s} hG hs => ?_⟩
  · rw [Expr.eval_var, hρ x hQ, if_pos rfl]
  · rw [Expr.sort?_var, hG x hQ, if_pos rfl] at hs
    exact hs

theorem IL.Mirrors.kept (hz : z ≠ x) (hQ : Q z) :
    Mirrors Δ old (Scopes.replacing Δ old Q x w) (.var z) (.var z) :=
  .inert ⟨trivial, rfl⟩ ⟨trivial, rfl⟩
    ⟨fun hρ => by rw [Expr.eval_var, Expr.eval_var, hρ z hQ, if_neg hz],
      fun hG hs => by rwa [Expr.sort?_var, hG z hQ, if_neg hz] at hs⟩

theorem lookup_single (y : String) :
    (Subst.ofBindings none [(x, r)]).map.lookup y = if y = x then some r else none :=
  Subst.lookup_bind [] (x, r) y

/-- The substitution of one variable replaces it as the scopes say. -/
theorem Replaces.single (hr : Portable Δ env old r w) (htyp : Γ x = some r.typ)
    (hQ : ∀ y ∈ e.freeVars, Q y) :
    Replaces Δ env old (Scopes.replacing Δ old Q x w) Γ (.ofBindings none [(x, r)]) e where
  receiver := rfl
  kept y hy hnone := by
    refine .kept ?_ (hQ y hy)
    rintro rfl
    rw [lookup_single, if_pos rfl] at hnone
    cases hnone
  replaced y hy a ha := by
    rw [lookup_single, Option.mem_def, Option.ite_none_right_eq_some, Option.some.injEq] at ha
    obtain ⟨rfl, rfl⟩ := ha
    exact ⟨htyp, w, hr, .replaced hr.inert (hQ y hy)⟩

end

/-! ## Merged binders -/

namespace IL

/-- The formals but for one name, and other binders after them. -/
def merged (formals others : List Binder) (x : String) : List Binder :=
  formals.filter (fun b => b.1 != x) ++ others

section

variable {M : Model} {Δ : Vocabulary} {old σ ρ' : M.Valuation} {fs bs cs : List Binder}
  {x z : String} {s : Srt} {w : Expr} {G G' : Sorts}

theorem Coherent.append (hbs : Coherent bs) (hcs : Coherent cs)
    (h : ∀ b ∈ bs, ∀ c ∈ cs, b.1 ≠ c.1) : Coherent (bs ++ cs) := by
  intro b hb c hc heq
  rcases List.mem_append.1 hb with hb | hb <;> rcases List.mem_append.1 hc with hc | hc
  · exact hbs b hb c hc heq
  · exact absurd heq (h b hb c hc)
  · exact absurd heq.symm (h c hc b hb)
  · exact hcs b hb c hc heq

theorem mem_merged {b : Binder} (hb : b ∈ merged fs bs x) : b ∈ fs ++ bs := by
  rcases List.mem_append.1 hb with hb | hb
  · exact List.mem_append_left _ (List.mem_of_mem_filter hb)
  · exact List.mem_append_right _ hb

theorem Coherent.mono (h : Coherent cs) (hsub : ∀ b ∈ bs, b ∈ cs) : Coherent bs :=
  fun b hb c hc => h b (hsub b hb) c (hsub c hc)

theorem Coherent.merged (h : Coherent (fs ++ bs)) (x : String) : Coherent (merged fs bs x) :=
  h.mono fun _ => mem_merged

theorem mem_merged_of_ne {b : Binder} (hb : b ∈ fs) (hne : b.1 ≠ x) : b ∈ merged fs bs x :=
  List.mem_append_left _ (List.mem_filter.2 ⟨hb, by simpa using hne⟩)

theorem Sorts.bind_append : G.bind (bs ++ cs) = (G.bind bs).bind cs := List.foldl_append

theorem Sorts.bind_filter (h : ∀ y, y ≠ x → G y = G' y) (hz : z ≠ x) :
    G.bind (fs.filter fun b => b.1 != x) z = G'.bind fs z := by
  induction fs generalizing G G' with
  | nil => exact h z hz
  | cons b fs ih =>
    by_cases hb : b.1 = x
    · rw [List.filter_cons_of_neg (by simpa using hb), Sorts.bind_cons]
      exact ih fun y hy => by rw [Function.update_of_ne (hb ▸ hy), h y hy]
    · rw [List.filter_cons_of_pos (by simpa using hb), Sorts.bind_cons, Sorts.bind_cons]
      refine ih fun y hy => ?_
      by_cases hyb : y = b.1
      · simp [hyb]
      · rw [Function.update_of_ne hyb, Function.update_of_ne hyb, h y hy]

/-- Names but the left out one have the sorts that they have where the others are bound below the
formals. -/
theorem Sorts.bind_merged (hz : z ≠ x) : G.bind (merged fs bs x) z = (G.bind fs).bind bs z := by
  rw [merged, Sorts.bind_append]
  by_cases hmem : z ∈ bs.map (·.1)
  · exact Sorts.bind_of_mem hmem
  · rw [Sorts.bind_of_notMem hmem, Sorts.bind_of_notMem hmem]
    exact Sorts.bind_filter (fun _ _ => rfl) hz

/-- The names that mean the same among formals and merged binders: what is bound beside the formals
is a formal. -/
def IsShared (fs bs : List Binder) (z : String) : Prop := z ∈ bs.map (·.1) → z ∈ fs.map (·.1)

/-- Merged binders where what is left out is an expression, compared with the formals and with the
other binders below them. -/
theorem Scopes.sorts_merged (h : Coherent (fs ++ bs)) (hx : (x, s) ∈ fs)
    (hnot : x ∉ bs.map (·.1)) (hw : w.sort? Δ (G.bind (merged fs bs x)) = some s) :
    (Scopes.replacing (M := M) Δ old (IsShared fs bs) x w).sorts (G.bind fs)
        (G.bind (merged fs bs x)) ∧
      (Scopes.replacing (M := M) Δ old (fun _ => True) x w).sorts ((G.bind fs).bind bs)
        (G.bind (merged fs bs x)) := by
  have hformals : Coherent fs := h.mono fun _ => List.mem_append_left _
  have hothers : Coherent bs := h.mono fun _ => List.mem_append_right _
  have hleft : G.bind fs x = some s := hformals.sort hx
  refine ⟨fun z hz => ?_, fun z _ => ?_⟩
  · split
    · rename_i hzx
      rw [hzx, hleft, hw]
    · rename_i hzx
      rw [Sorts.bind_merged hzx]
      by_cases hmem : z ∈ bs.map (·.1)
      · obtain ⟨b, hb, rfl⟩ := List.mem_map.1 (hz hmem)
        obtain ⟨c, hc, hname⟩ := List.mem_map.1 hmem
        rw [hformals.sort hb, ← hname, hothers.sort hc,
          h b (List.mem_append_left _ hb) c (List.mem_append_right _ hc) hname.symm]
      · rw [Sorts.bind_of_notMem hmem]
  · split
    · rename_i hzx
      rw [hzx, Sorts.bind_of_notMem hnot, hleft, hw]
    · rename_i hzx
      rw [Sorts.bind_merged hzx]

/-- For values of merged binders there are values of the formals, where what is left out has the
value of the expression. -/
theorem Scopes.values_merged (h : Coherent (fs ++ bs)) (hx : (x, s) ∈ fs)
    (hnot : x ∉ bs.map (·.1)) (hρ' : Model.Assigns (merged fs bs x) σ ρ')
    (hw : M.carrier s (w.eval old ρ')) :
    ∃ ρ, Model.Assigns fs σ ρ ∧ (Scopes.replacing Δ old (IsShared fs bs) x w).values ρ ρ' ∧
      (Scopes.replacing Δ old (fun _ => True) x w).values
        (Model.bind (bs.map fun b => (b.1, ρ' b.1)) ρ) ρ' := by
  classical
  let ρ : M.Valuation := fun z =>
    if z = x then w.eval old ρ' else if z ∈ fs.map (·.1) then ρ' z else σ z
  have hxmem : x ∈ fs.map (·.1) := List.mem_map.2 ⟨_, hx, rfl⟩
  have hkept : ∀ z, z ≠ x → z ∉ bs.map (·.1) → ρ z = ρ' z := by
    intro z hzx hmem
    by_cases hz : z ∈ fs.map (·.1)
    · simp only [ρ, if_neg hzx, if_pos hz]
    · have hall : z ∉ (merged fs bs x).map (·.1) := fun hin => by
        obtain ⟨b, hb, rfl⟩ := List.mem_map.1 hin
        rcases List.mem_append.1 (mem_merged hb) with hb | hb
        · exact hz (List.mem_map_of_mem hb)
        · exact hmem (List.mem_map_of_mem hb)
      simp only [ρ, if_neg hzx, if_neg hz]
      exact (hρ'.of_notMem hall).symm
  refine ⟨ρ, .of_carrier (fun b hb => ?_) fun z hz => ?_, fun z hz => ?_, fun z _ => ?_⟩
  · by_cases hbx : b.1 = x
    · have hsort : b.2 = s := h b (List.mem_append_left _ hb) (x, s) (List.mem_append_left _ hx) hbx
      simpa [ρ, hbx, hsort] using hw
    · have hvalue := (h.merged x).carrier hρ' (mem_merged_of_ne hb hbx)
      simpa only [ρ, if_neg hbx, if_pos (List.mem_map_of_mem (f := (·.1)) hb)] using hvalue
  · have hzx : z ≠ x := fun heq => hz (heq ▸ hxmem)
    simp only [ρ, if_neg hzx, if_neg hz]
  · split
    · rename_i hzx
      simp [ρ, hzx]
    · rename_i hzx
      by_cases hmem : z ∈ bs.map (·.1)
      · simp only [ρ, if_neg hzx, if_pos (hz hmem)]
      · exact hkept z hzx hmem
  · rw [Model.bind_map]
    by_cases hzx : z = x
    · rw [if_pos hzx, if_neg (hzx ▸ hnot)]
      simp only [ρ, if_pos hzx]
    · rw [if_neg hzx]
      split
      · rfl
      · rename_i hmem
        exact hkept z hzx hmem

end

end IL

end ContractLowering
