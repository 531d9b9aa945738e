import ContractLowering.Proofs.Standard.Family

/-!
# Facts about constructors

In the standard model of a family the facts about the constructors of its datatypes are true
(`isTrue_structureFact`, `isTrue_testFact`, `isTrue_builtFact`, `isTrue_allocFact`,
`isTrue_testsFact`), provided that the functions of constructors are told apart by their names.
-/

namespace ContractLowering

open IL Source Prelude

/-- Binders are bound one list after the other. -/
theorem IL.Model.assigns_append {M : Model} {bs bs' : List IL.Binder} {ρ ρ' : M.Valuation} :
    Assigns (bs ++ bs') ρ ρ' ↔ ∃ ρ₁, Assigns bs ρ ρ₁ ∧ Assigns bs' ρ₁ ρ' := by
  induction bs generalizing ρ with
  | nil => simp
  | cons b bs ih =>
    simp only [List.cons_append, assigns_cons, ih]
    constructor
    · rintro ⟨a, ha, ρ₁, hρ₁, hρ'⟩
      exact ⟨ρ₁, ⟨a, ha, hρ₁⟩, hρ'⟩
    · rintro ⟨ρ₁, ⟨a, ha, hρ₁⟩, hρ'⟩
      exact ⟨a, ha, ρ₁, hρ₁, hρ'⟩

namespace Standard

/-! ## Boxes of typed values -/

theorem sort_unboxed (t : Typ) (n : ℕ) : (unboxed t n).sort = t.sort := by
  cases t <;> first | exact Val.sort_unbox _ n | rfl

theorem unboxed_toCode {t : Typ} {v : Val} (hv : v.sort = t.sort) : unboxed t v.toCode = v := by
  cases t with
  | param x =>
    obtain ⟨n, rfl⟩ := Val.sort_eq_box.1 hv
    rfl
  | _ => exact Val.unbox_toCode hv

theorem lookup_of_mem {β : Type} {l : List (String × β)} (h : (l.map (·.1)).Nodup)
    {p : String × β} (hp : p ∈ l) : l.lookup p.1 = some p.2 := by
  induction l with
  | nil => cases hp
  | cons q l ih =>
    obtain ⟨hq, hl⟩ := List.nodup_cons.1 h
    rcases List.mem_cons.1 hp with rfl | hp
    · rw [List.lookup_cons, beq_self_eq_true]
    · have hne : p.1 ≠ q.1 := by
        intro heq
        exact hq (List.mem_map.2 ⟨p, hp, heq⟩)
      rw [List.lookup_cons, beq_eq_false_iff_ne.2 hne]
      exact ih hl hp

theorem lookup_map {α β : Type} [BEq β] [LawfulBEq β] {l : List α} {f : α → β} {g : β → ℕ} {a : α}
    (ha : a ∈ l) : (l.map fun a => (f a, g (f a))).lookup (f a) = some (g (f a)) := by
  induction l with
  | nil => cases ha
  | cons b l ih =>
    rw [List.map_cons, List.lookup_cons]
    by_cases h : f a = f b
    · simp [h]
    · rw [beq_eq_false_iff_ne.2 h]
      rcases List.mem_cons.1 ha with rfl | ha
      · exact absurd rfl h
      · exact ih ha

theorem bound_of_notMem {l : List (String × Val)} {ρ : String → Val} {x : String}
    (h : x ∉ l.map (·.1)) : bound l ρ x = ρ x := by
  induction l generalizing ρ with
  | nil => rfl
  | cons p l ih =>
    simp only [List.map_cons, List.mem_cons, not_or] at h
    exact (ih h.2).trans (Function.update_of_ne h.1 ..)

/-- Distinct names get the values that are bound to them. -/
theorem bound_map {α : Type} {l : List α} {f : α → String} {g : α → Val} {ρ : String → Val}
    (h : (l.map f).Nodup) {a : α} (ha : a ∈ l) :
    bound (l.map fun a => (f a, g a)) ρ (f a) = g a := by
  induction l generalizing ρ with
  | nil => cases ha
  | cons b l ih =>
    obtain ⟨hb, hl⟩ := List.nodup_cons.1 h
    rcases List.mem_cons.1 ha with rfl | ha
    · show bound (l.map fun a => (f a, g a)) (Function.update ρ (f a) (g a)) (f a) = g a
      rw [bound_of_notMem (by simpa using hb), Function.update_self]
    · exact ih hl ha

/-! ## Names of constructors -/

namespace Family

/-- The functions and constants of constructors are told apart by their names. -/
structure Proper (F : Family) : Prop where
  symbols : ((F.ctors.flatMap F.symbols).map (·.1)).Nodup
  fresh : ∀ p ∈ F.ctors.flatMap F.symbols, Op.ofName? p.1 = none
  ids : ∀ e ∈ F.ctors,
    F.constants (Naming.ctorId e.1 e.2.name) = .ctorId (Naming.ctorId e.1 e.2.name)
  plain : ∀ e ∈ F.ctors, ∀ f ∈ e.2.fields, '%' ∉ f.1.toList

namespace Proper

variable {F : Family} (hF : F.Proper) {e e' : Path × Ctor} {old ρ : String → Val}

include hF

theorem func_eq (he : e ∈ F.ctors) {p : String × (List Val → Val)} (hp : p ∈ F.symbols e)
    (args : List Val) : F.func p.1 args = p.2 args := by
  unfold func
  rw [lookup_of_mem hF.symbols (List.mem_flatMap.2 ⟨e, he, hp⟩)]

theorem value_symbol (he : e ∈ F.ctors) {p : String × (List Val → Val)} (hp : p ∈ F.symbols e)
    (es : List IL.Expr) : value F.interp old ρ (.app p.1 es) =
      p.2 (es.map (value F.interp old ρ)) :=
  (value_func (hF.fresh p (List.mem_flatMap.2 ⟨e, he, hp⟩)) es).trans (hF.func_eq he hp _)

/-- A constructed value. -/
theorem value_applied (he : e ∈ F.ctors) : value F.interp old ρ (e.2.applied e.1) =
    .data ⟨Naming.ctor e.1 e.2.name, e.2.fields.map fun f => (ρ (f.1 ++ "%a")).toCode⟩ := by
  refine (hF.value_symbol he (p := (Naming.ctor e.1 e.2.name, _)) List.mem_cons_self _).trans ?_
  simp [Ctor.fieldVars, Function.comp_def]

theorem value_test (he : e ∈ F.ctors) (d : IL.Expr) : value F.interp old ρ (e.2.test e.1 d) =
    .ofProp (F.ctorId (value F.interp old ρ d).toData = Naming.ctorId e.1 e.2.name) :=
  hF.value_symbol he (p := (Naming.isCtor e.1 e.2.name, _))
    (List.mem_cons_of_mem _ List.mem_cons_self) [d]

theorem value_destructor (he : e ∈ F.ctors) {f : Source.Binder} (hf : f ∈ e.2.fields)
    (d : IL.Expr) : value F.interp old ρ (.app (Naming.destructor e.1 e.2.name f.1) [d]) =
      unboxed f.2 (argument e.2 f.1 (value F.interp old ρ d).toData.args) :=
  hF.value_symbol he (p := (Naming.destructor e.1 e.2.name f.1, _))
    (List.mem_cons_of_mem _ (List.mem_cons_of_mem _ (List.mem_map_of_mem hf))) [d]

/-- Constructors have different names. -/
theorem ctor_inj (he : e ∈ F.ctors) (he' : e' ∈ F.ctors)
    (h : Naming.ctor e.1 e.2.name = Naming.ctor e'.1 e'.2.name) : e = e' := by
  have hsub : (F.ctors.map fun e => Naming.ctor e.1 e.2.name).Sublist
      ((F.ctors.flatMap F.symbols).map (·.1)) := by
    rw [List.map_flatMap, List.map_eq_flatMap]
    exact .flatMap_right _ fun e _ => by simp [Family.symbols]
  exact List.inj_on_of_nodup_map (hsub.nodup hF.symbols) he he' h

/-- The variables of the fields of a constructor are distinct. -/
theorem nodup_fieldVars (he : e ∈ F.ctors) : (e.2.fields.map (·.1 ++ "%a")).Nodup := by
  have hsub : (e.2.fields.map fun f => Naming.destructor e.1 e.2.name f.1).Sublist
      ((F.ctors.flatMap F.symbols).map (·.1)) := by
    refine .trans ?_ (((List.singleton_sublist.2 he).flatMap F.symbols).map (·.1))
    simp [Family.symbols, Function.comp_def]
  have hnodup := hsub.nodup hF.symbols
  rw [show (fun f : Source.Binder => Naming.destructor e.1 e.2.name f.1) =
    (fun x => Naming.destructor e.1 e.2.name x) ∘ (·.1) from rfl, ← List.map_map] at hnodup
  have hnames := hnodup.of_map
  rw [show (fun f : Source.Binder => f.1 ++ "%a") = (· ++ "%a") ∘ (·.1) from rfl, ← List.map_map]
  exact hnames.map fun x y hxy => by simpa using hxy

/-- The variable of a field has one percent sign, and only a letter after it. -/
theorem fieldVar_ne (he : e ∈ F.ctors) {f : Source.Binder} (hf : f ∈ e.2.fields) {x y : String}
    (hy : y ≠ "a") : f.1 ++ "%a" ≠ x ++ "%" ++ y := by
  intro heq
  have hlist : f.1.toList ++ '%' :: ['a'] = x.toList ++ '%' :: y.toList := by
    simpa using congrArg String.toList heq
  have hafter := ((List.append_cons_inj_of_notMem (hF.plain e he f hf) (by decide)).1 hlist).2.2
  exact hy (String.toList_inj.1 hafter.symm)

/-- No variable of a field is the constant of a constructor. -/
theorem ctorId_notMem (he : e ∈ F.ctors) (p : Path) (x : String) :
    Naming.ctorId p x ∉ (sortBinders e.2.fieldVars).map (·.1) := by
  intro hmem
  simp only [sortBinders, Ctor.fieldVars, List.map_map, List.mem_map, Function.comp_def] at hmem
  obtain ⟨f, hf, heq⟩ := hmem
  refine hF.fieldVar_ne he hf (x := "ctor") (y := Naming.ctor p x) ?_ (heq.trans ?_)
  · intro h
    have hdot : '.' ∈ (Naming.ctor p x).toList := by simp [Naming.ctor]
    rw [h] at hdot
    revert hdot
    decide
  · simp [Naming.ctorId]

/-- No variable of a field is one of a where clause. -/
theorem not_generated_fieldVar (he : e ∈ F.ctors) {f : Source.Binder} (hf : f ∈ e.2.fields) :
    ¬ Generated (f.1 ++ "%a") := by
  have hdigits (n : ℕ) : toString n ≠ "a" := by
    intro h
    have ha : 'a' ∈ Nat.toDigits 10 n := by simpa using (congrArg (fun s => 'a' ∈ s.toList) h).mpr
    exact absurd (Nat.isDigit_of_mem_toDigits (by decide) (by decide) ha) (by decide)
  intro h
  generalize hx : f.1 ++ "%a" = x at h
  cases h with
  | box =>
    have hmem : '%' ∈ Naming.boxVar.toList := by rw [← hx]; simp
    revert hmem
    decide
  | boxAt k => exact hF.fieldVar_ne he hf (hdigits k) hx
  | indexAt k => exact hF.fieldVar_ne he hf (hdigits k) hx

end Proper

/-! ## Truth of the facts -/

/-- Of the names without percent sign only one is generated. -/
theorem not_generated_of_plain {x : String} (h : '%' ∉ x.toList) (hx : x ≠ Naming.boxVar) :
    ¬ Generated x := by
  intro hgenerated
  cases hgenerated with
  | box => exact hx rfl
  | boxAt k => simp [WhereClause.boxVar] at h
  | indexAt k => simp [WhereClause.indexVar] at h

theorem not_generated_heapParam : ¬ Generated Naming.heapParam :=
  not_generated_of_plain (by decide) (by decide)

theorem zip_map_self {α β : Type} (l : List α) (f : α → β) :
    l.zip (l.map f) = l.map fun a => (a, f a) := by
  simpa using List.zip_map' (l := l) (f := id) (g := f)

/-- The fields of a constructor with their variables. -/
theorem mem_parts {k : Ctor} {f x : Source.Binder} (h : (f, x) ∈ k.fields.zip k.fieldVars) :
    f ∈ k.fields ∧ x = (f.1 ++ "%a", f.2) := by
  rw [Ctor.fieldVars, zip_map_self, List.mem_map] at h
  obtain ⟨g, hg, heq⟩ := h
  obtain ⟨rfl, rfl⟩ := Prod.mk.inj heq
  exact ⟨hg, rfl⟩

/-- A name without percent sign is no variable of a field. -/
theorem notMem_fieldVars {k : Ctor} {x : String} (hx : '%' ∉ x.toList) :
    x ∉ (sortBinders k.fieldVars).map (·.1) := by
  intro hmem
  simp only [sortBinders, Ctor.fieldVars, List.map_map, List.mem_map, Function.comp_def] at hmem
  obtain ⟨f, -, rfl⟩ := hmem
  simp at hx

/-- The field of a constructed value. -/
theorem argument_applied {k : Ctor} {f : Source.Binder} (hf : f ∈ k.fields) (g : String → ℕ) :
    argument k f.1 (k.fields.map fun f => g f.1) = g f.1 := by
  unfold argument
  rw [List.zip_map']
  rw [lookup_map (f := (·.1)) (g := g) hf, Option.getD_some]

section

variable {F : Family} (hF : F.Proper) {e : Path × Ctor} (he : e ∈ F.ctors)
  {old ρ ρ' : String → Val}

/-- A valuation of the fields of a constructor. -/
structure Fields (k : Ctor) (ρ ρ' : String → Val) : Prop where
  sort : ∀ f ∈ k.fields, (ρ' (f.1 ++ "%a")).sort = f.2.sort
  same : ∀ x ∉ (sortBinders k.fieldVars).map (·.1), ρ' x = ρ x

include hF he

theorem fields_of_assigns
    (h : Model.Assigns (M := model F.interp) (sortBinders e.2.fieldVars) ρ ρ') :
    Fields e.2 ρ ρ' where
  sort f hf := by
    have hnodup : ((sortBinders e.2.fieldVars).map (·.1)).Nodup := by
      simpa [sortBinders, Ctor.fieldVars, Function.comp_def] using hF.nodup_fieldVars he
    refine h.carrier hnodup (b := (f.1 ++ "%a", f.2.sort)) ?_
    exact List.mem_map.2 ⟨_, List.mem_map_of_mem hf, rfl⟩
  same x hx := h.of_notMem hx

/-- A valuation of the fields of a constructor and of a heap. -/
theorem fields_of_assigns_heap (h : Model.Assigns (M := model F.interp)
      (sortBinders e.2.fieldVars ++ [(Naming.heapParam, heapSort)]) ρ ρ') :
    ∃ ρ₁ st, Fields e.2 ρ ρ₁ ∧ ρ' = Function.update ρ₁ Naming.heapParam (.heap st) := by
  obtain ⟨ρ₁, hfields, hheap⟩ := Model.assigns_append.1 h
  obtain ⟨v, hv, hρ'⟩ := Model.assigns_cons.1 hheap
  obtain ⟨st, rfl⟩ := Val.sort_eq_heap.1 hv
  exact ⟨ρ₁, st, fields_of_assigns hF he hfields, Model.assigns_nil.1 hρ'⟩

omit hF he in
theorem fits_fields (h : Fields e.2 ρ ρ') :
    Fits e.2 (e.2.fields.map fun f => (ρ' (f.1 ++ "%a")).toCode) := by
  rw [Fits, List.forall₂_map_right_iff]
  exact List.forall₂_same.2 fun f hf => by rw [unboxed_toCode (h.sort f hf)]

omit hF in
/-- The identifier of a constructed value. -/
theorem ctorId_applied (h : Fields e.2 ρ ρ') :
    F.ctorId ⟨Naming.ctor e.1 e.2.name, e.2.fields.map fun f => (ρ' (f.1 ++ "%a")).toCode⟩ =
      Naming.ctorId e.1 e.2.name :=
  if_pos ⟨e, he, rfl, fits_fields h⟩

theorem value_hasId (hid : ρ (Naming.ctorId e.1 e.2.name) = F.constants (Naming.ctorId e.1 e.2.name))
    (d : IL.Expr) : value F.interp old ρ (e.2.hasId e.1 d) =
      .ofProp (F.ctorId (value F.interp old ρ d).toData = Naming.ctorId e.1 e.2.name) := by
  rw [Ctor.hasId, value_eq, value_var, hid, hF.ids e he,
    show datatypeCtorId d = .app Op.datatypeCtorId.name [d] from rfl, value_op]
  simp [Op.eval, interp]

/-- Destructors give back the fields of a constructed value. -/
theorem isTrue_inverse (h : Fields e.2 ρ ρ') {f : Source.Binder} (hf : f ∈ e.2.fields) :
    IsTrue F.interp old ρ' (.eq (.app (Naming.destructor e.1 e.2.name f.1) [e.2.applied e.1])
      (.var (f.1 ++ "%a"))) := by
  rw [isTrue_eq, hF.value_destructor he hf, hF.value_applied he, value_var, Val.toData,
    argument_applied hf fun x => (ρ' (x ++ "%a")).toCode, unboxed_toCode (h.sort f hf)]

/-- The fields of a constructed value that have datatypes have smaller ranks. -/
theorem isTrue_rank (h : Fields e.2 ρ ρ') {f : Source.Binder} (hf : f ∈ e.2.fields) {p : Path}
    {ts : List Typ} (ht : f.2 = .datatype p ts) :
    IsTrue F.interp old ρ' (.lt (dtRank (.var (f.1 ++ "%a"))) (dtRank (e.2.applied e.1))) := by
  have hrank (d : IL.Expr) : value F.interp old ρ' (dtRank d) =
      .int (code (.inl (value F.interp old ρ' d).toData)) := value_op .dtRank [d]
  obtain ⟨d, hd⟩ := Val.sort_eq_data.1 ((h.sort f hf).trans (by rw [ht]; rfl))
  have hmem : code (.inl d) ∈ e.2.fields.map fun f => (ρ' (f.1 ++ "%a")).toCode :=
    List.mem_map.2 ⟨f, hf, by rw [hd]; rfl⟩
  rw [isTrue_lt, hrank, hrank, hF.value_applied he, value_var, hd]
  exact Int.ofNat_lt.2 (lt_code_of_mem_args hmem)

/-- Constructed values have identifiers, destructors take them apart, and ranks go down. -/
theorem isTrue_structureFact : IsTrue F.interp old F.constants (e.2.structureFact e.1) := by
  rw [Ctor.structureFact, isTrue_all]
  intro ρ' hρ'
  have hfields := fields_of_assigns hF he hρ'
  refine (isTrue_conj _).2 (List.forall_mem_cons.2 ⟨?_, fun a ha => ?_⟩)
  · rw [isTrue_of_value (value_hasId hF he (hfields.same _ (hF.ctorId_notMem he _ _)) _),
      hF.value_applied he]
    exact ctorId_applied he hfields
  rcases List.mem_append.1 ha with ha | ha
  · obtain ⟨⟨f, x⟩, hfx, rfl⟩ := List.mem_map.1 ha
    obtain ⟨hf, rfl⟩ := mem_parts hfx
    exact isTrue_inverse hF he hfields hf
  · obtain ⟨⟨f, x⟩, hfx, hrank⟩ := List.mem_filterMap.1 ha
    obtain ⟨hf, rfl⟩ := mem_parts hfx
    dsimp only at hrank
    split at hrank
    · rename_i p ts ht
      obtain rfl := Option.some.inj hrank
      exact isTrue_rank hF he hfields hf ht
    · cases hrank

omit hF he in
theorem ctorId_ne_datatypeVar (p : Path) (x : String) : Naming.ctorId p x ≠ datatypeVar := by
  intro h
  simpa [Naming.ctorId, datatypeVar] using congrArg (·.toList.head?) h

/-- A test holds of the values with the identifier of its constructor. -/
theorem isTrue_testFact : IsTrue F.interp old F.constants (e.2.testFact e.1) := by
  rw [Ctor.testFact, datatypeBinders, isTrue_all_one]
  intro v hv
  rw [isTrue_eq, hF.value_test he, value_hasId hF he]
  exact Function.update_of_ne (ctorId_ne_datatypeVar _ _) ..

/-- The values with the identifier of a constructor. -/
theorem ctorId_eq_iff {d : Data} : F.ctorId d = Naming.ctorId e.1 e.2.name ↔
    d.ctor = Naming.ctor e.1 e.2.name ∧ Fits e.2 d.args := by
  unfold ctorId
  split
  · rename_i h
    obtain ⟨e', he', hname, hfits⟩ := h
    rw [Naming.ctorId, String.append_right_inj]
    refine ⟨fun h => ⟨h, ?_⟩, And.left⟩
    obtain rfl := hF.ctor_inj he' he (hname.trans h)
    exact hfits
  · rename_i h
    refine iff_of_false ?_ fun ⟨hname, hfits⟩ => h ⟨e, he, hname.symm, hfits⟩
    intro heq
    simpa [Naming.ctorId] using congrArg String.toList heq

omit hF he in
theorem assigns_bound {fs : List Source.Binder} {args : List ℕ} (h : fs.length = args.length) :
    Model.Assigns (M := model F.interp) (fs.map fun f => (f.1 ++ "%a", f.2.sort)) ρ
      (bound ((fs.zip args).map fun p => (p.1.1 ++ "%a", unboxed p.1.2 p.2)) ρ) := by
  induction fs generalizing args ρ with
  | nil => exact Model.assigns_nil.2 rfl
  | cons f fs ih =>
    obtain ⟨n, args, rfl⟩ := List.exists_cons_of_length_eq_add_one h.symm
    exact Model.assigns_cons.2 ⟨_, sort_unboxed _ _, ih (by simpa using h)⟩

omit hF he in
/-- The fields take the values in the boxes of arguments. -/
theorem assigns_filled {k : Ctor} {args : List ℕ} (h : Fits k args) :
    Model.Assigns (M := model F.interp) (sortBinders k.fieldVars) ρ (filled k args ρ) := by
  have hbinders : sortBinders k.fieldVars = k.fields.map fun f => (f.1 ++ "%a", f.2.sort) := by
    simp [sortBinders, Ctor.fieldVars, Function.comp_def]
  rw [hbinders]
  exact assigns_bound h.length_eq

/-- The variables of the fields have the values in the boxes. -/
theorem filled_eq {args : List ℕ} (hlength : e.2.fields.length = args.length)
    {p : Source.Binder × ℕ} (hp : p ∈ e.2.fields.zip args) :
    filled e.2 args ρ (p.1.1 ++ "%a") = unboxed p.1.2 p.2 := by
  have hmap : ((e.2.fields.zip args).map fun p => p.1.1 ++ "%a") =
      e.2.fields.map (·.1 ++ "%a") := by
    conv_rhs => rw [← List.map_fst_zip hlength.le, List.map_map]
    rfl
  exact bound_map (hmap ▸ hF.nodup_fieldVars he) hp

/-- Boxing the values in boxes gives the boxes back. -/
theorem map_toCode_filled {args : List ℕ} (hfits : Fits e.2 args) :
    (e.2.fields.map fun f => (filled e.2 args ρ (f.1 ++ "%a")).toCode) = args := by
  obtain ⟨hlength, hzip⟩ := List.forall₂_iff_zip.1 hfits
  calc
    _ = ((e.2.fields.zip args).map Prod.fst).map fun f =>
          (filled e.2 args ρ (f.1 ++ "%a")).toCode := by
      rw [List.map_fst_zip hlength.le]
    _ = (e.2.fields.zip args).map Prod.snd := by
      rw [List.map_map]
      refine List.map_congr_left fun p hp => ?_
      show (filled e.2 args ρ (p.1.1 ++ "%a")).toCode = _
      rw [filled_eq hF he hlength hp]
      exact hzip hp
    _ = args := List.map_snd_zip hlength.ge

/-- Values of which a test holds are built by its constructor. -/
theorem isTrue_builtFact : IsTrue F.interp old F.constants (e.2.builtFact e.1) := by
  rw [Ctor.builtFact, datatypeBinders, isTrue_all_one]
  intro v hv
  obtain ⟨d, rfl⟩ := Val.sort_eq_data.1 hv
  rw [isTrue_imp, isTrue_of_value (hF.value_test he _), value_var, Function.update_self, isTrue_ex]
  intro hid
  obtain ⟨hname, hfits⟩ : d.ctor = Naming.ctor e.1 e.2.name ∧ Fits e.2 d.args :=
    (ctorId_eq_iff hF he).1 hid
  refine ⟨_, assigns_filled hfits, ?_⟩
  have hfields := fields_of_assigns (F := F) hF he
    (assigns_filled (ρ := Function.update F.constants datatypeVar (.data d)) hfits)
  rw [isTrue_eq, value_var, hF.value_applied he, map_toCode_filled hF he hfits, ← hname,
    hfields.same _ (notMem_fieldVars (by decide)), Function.update_self]

/-- The values that the fields of a constructed value have. -/
theorem filled_fields (h : Fields e.2 ρ ρ') :
    filled e.2 (e.2.fields.map fun f => (ρ' (f.1 ++ "%a")).toCode) ρ = ρ' := by
  have hfits := fits_fields h
  have hfilled := fields_of_assigns (F := F) hF he (assigns_filled (ρ := ρ) hfits)
  funext x
  by_cases hx : x ∈ (sortBinders e.2.fieldVars).map (·.1)
  · simp only [sortBinders, Ctor.fieldVars, List.map_map, List.mem_map, Function.comp_def] at hx
    obtain ⟨f, hf, rfl⟩ := hx
    have hp : (f, (ρ' (f.1 ++ "%a")).toCode) ∈
        e.2.fields.zip (e.2.fields.map fun f => (ρ' (f.1 ++ "%a")).toCode) := by
      rw [zip_map_self]
      exact List.mem_map_of_mem hf
    exact (filled_eq hF he hfits.length_eq hp).trans (unboxed_toCode (h.sort f hf))
  · rw [hfilled.same x hx, h.same x hx]

/-- A constructed value is allocated exactly if its fields have their types. -/
theorem allocated_applied (h : Fields e.2 F.constants ρ') {st : Store} :
    F.allocated ⟨Naming.ctor e.1 e.2.name, e.2.fields.map fun f => (ρ' (f.1 ++ "%a")).toCode⟩ st ↔
      ∀ f ∈ e.2.fields, Typed F.context F.func F.allocated
        (Function.update ρ' Naming.heapParam (.heap st)) st f.2 (ρ' (f.1 ++ "%a")) := by
  have hscope : F.scope e.2 (e.2.fields.map fun f => (ρ' (f.1 ++ "%a")).toCode) st =
      Function.update ρ' Naming.heapParam (.heap st) := by
    rw [scope, filled_fields hF he h]
  have htyped : (∀ p ∈ e.2.fields.zip (e.2.fields.map fun f => (ρ' (f.1 ++ "%a")).toCode),
      Typed F.context F.func F.allocated (Function.update ρ' Naming.heapParam (.heap st)) st p.1.2
        (unboxed p.1.2 p.2)) ↔ ∀ f ∈ e.2.fields, Typed F.context F.func F.allocated
        (Function.update ρ' Naming.heapParam (.heap st)) st f.2 (ρ' (f.1 ++ "%a")) := by
    rw [zip_map_self, List.forall_mem_map]
    exact forall₂_congr fun f hf => by rw [unboxed_toCode (h.sort f hf)]
  rw [allocated_iff, ← htyped, ← hscope]
  constructor
  · rintro ⟨e', he', hname, -, hfields⟩
    obtain rfl := hF.ctor_inj he' he hname
    exact hfields
  · intro hfields
    exact ⟨e, he, rfl, fits_fields h, hfields⟩

/-- A constructed value is allocated if its fields have their types. -/
theorem isTrue_allocFact {env : Env} {a : IL.Expr} (hcontext : env.context = F.context)
    (ha : (e.2.allocFact e.1).Returns env a) : IsTrue F.interp old F.constants a := by
  simp only [Ctor.allocFact, ExprM.returns_bind, ExprM.returns_pure] at ha
  obtain ⟨ws, hws, rfl⟩ := ha
  rw [isTrue_all]
  intro ρ' hρ'
  obtain ⟨ρ₁, st, hfields, rfl⟩ := fields_of_assigns_heap hF he hρ'
  have hvar (f : Source.Binder) :
      (Function.update ρ₁ Naming.heapParam (.heap st)) (f.1 ++ "%a") = ρ₁ (f.1 ++ "%a") := by
    refine Function.update_of_ne ?_ ..
    intro heq
    have hmem : '%' ∈ Naming.heapParam.toList := by rw [← heq]; simp
    revert hmem
    decide
  have hheap : (Function.update ρ₁ Naming.heapParam (.heap st)) Naming.heapParam = .heap st :=
    Function.update_self ..
  have hnames : ∀ b ∈ e.2.fieldVars, ¬ Generated b.1 := by
    intro b hb
    obtain ⟨f, hf, rfl⟩ := List.mem_map.1 hb
    exact hF.not_generated_fieldVar he hf
  have hwheres : (∀ w ∈ ws, IsTrue F.interp old _ w) ↔ _ :=
    isTrue_whereClauses not_generated_heapParam hheap hnames hws
  rw [isTrue_imp]
  intro _
  rw [isTrue_eq, value_conj (isClause_whereClauses hws), isTrue_conj, hwheres,
    show ∀ d, isAllocDt d (.var Naming.heapParam) =
      .app Op.isAllocDt.name [d, .var Naming.heapParam] from fun _ => rfl, value_op]
  simp only [Op.eval, List.map_cons, List.map_nil, hF.value_applied he, hvar, value_var, hheap]
  refine congrArg Val.ofProp (propext ((allocated_applied hF he hfields).trans ?_))
  rw [hcontext, Ctor.fieldVars, List.forall_mem_map]
  exact forall₂_congr fun f hf => by rw [hvar]; rfl

omit he in
/-- A value satisfies the test of a constructor of a datatype exactly if it has the identifier of
one. -/
theorem isTrue_testsFact {d : Datatype} (hd : d ∈ F.datatypes) :
    IsTrue F.interp old F.constants d.testsFact := by
  rw [Datatype.testsFact, datatypeBinders, isTrue_all_one]
  intro v hv
  have hctor (k : Ctor) (hk : k ∈ d.ctors) : (d.path, k) ∈ F.ctors :=
    List.mem_flatMap.2 ⟨d, hd, List.mem_map_of_mem hk⟩
  have htest (k : Ctor) (hk : k ∈ d.ctors) :
      value F.interp old (Function.update F.constants datatypeVar v) _ = _ :=
    hF.value_test (hctor k hk) (.var datatypeVar)
  have hid (k : Ctor) (hk : k ∈ d.ctors) :
      value F.interp old (Function.update F.constants datatypeVar v) _ = _ :=
    value_hasId hF (hctor k hk) (Function.update_of_ne (ctorId_ne_datatypeVar _ _) ..)
      (.var datatypeVar)
  rw [isTrue_eq, value_disj, value_disj, isTrue_disj, isTrue_disj]
  · refine congrArg Val.ofProp (propext ?_)
    simp only [List.mem_map, exists_exists_and_eq_and]
    refine exists_congr fun k => and_congr_right fun hk => ?_
    rw [isTrue_of_value (htest k hk), isTrue_of_value (hid k hk)]
  · intro a ha
    obtain ⟨k, hk, rfl⟩ := List.mem_map.1 ha
    exact ⟨rfl, by rw [isTrue_of_value (hid k hk), hid k hk]⟩
  · intro a ha
    obtain ⟨k, hk, rfl⟩ := List.mem_map.1 ha
    exact ⟨rfl, by rw [isTrue_of_value (htest k hk), htest k hk]⟩

end

end Family

end Standard

end ContractLowering
