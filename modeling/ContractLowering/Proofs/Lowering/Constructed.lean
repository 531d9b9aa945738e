import ContractLowering.Proofs.Lowering.Comprehension
import ContractLowering.Proofs.Lowering.Conversions
import ContractLowering.Proofs.Lowering.Evaluation
import ContractLowering.Proofs.Lowering.Replaced
import ContractLowering.Proofs.Prelude.Heaps
import ContractLowering.Proofs.Source.Generic
import ContractLowering.Proofs.Standard.Consistency

/-!
# Constructed values

In a model of what a datatype emits, a constructed value passes the test of its constructor only,
and destructors give back what it was built from (`Model.Constructs`). So a match on it selects the
case of the constructor: the cascade that the match becomes has the value of that case
(`eval_lowerArms`), and the facts of the calls in the case hold if those of the match do
(`holds_armFacts`).
-/

namespace ContractLowering

open IL Source

/-! ## Constructed values in models -/

section

variable {M : Model} {old σ : M.Valuation} {d : Datatype}

theorem IL.Model.IsModelOf.satisfiesPrelude {ds : List Decl} (hM : M.IsModelOf σ ds)
    (hds : ∀ x, Prelude.Declares x → x ∈ ds) (old : M.Valuation) :
    Model.SatisfiesPrelude old σ where
  app hf := hM.satisfies _ (hds _ hf) _
  facts _ _ he := hM.satisfies _ (hds _ he) old

/-- Values of the fields of a constructor. -/
def IL.Model.FieldValues (M : Model) (k : Ctor) (us : List M.Val) : Prop :=
  List.Forall₂ (fun f u => M.carrier f.2.sort u) k.fields us

/-- The value that a constructor of a datatype builds. -/
def IL.Model.built (M : Model) (d : Datatype) (k : Ctor) (us : List M.Val) : M.Val :=
  M.app (Naming.ctor d.path k.name) us

/-- What the facts about a datatype say of the values that its constructors build. -/
structure IL.Model.Constructs (M : Model) (d : Datatype) : Prop where
  carrier : ∀ {k us}, k ∈ d.ctors → M.FieldValues k us →
    M.carrier Prelude.datatypeSort (M.built d k us)
  test : ∀ {k us c}, k ∈ d.ctors → M.FieldValues k us → c ∈ d.ctors →
    (M.truth (M.app (Naming.isCtor d.path c.name) [M.built d k us]) ↔ c.name = k.name)
  field : ∀ {k} {us : List M.Val} {n : Nat} {f u}, k ∈ d.ctors → M.FieldValues k us →
    k.fields[n]? = some f → us[n]? = some u →
    M.app (Naming.destructor d.path k.name f.1) [M.built d k us] = u

/-- The declarations of a program hold those of a datatype, and the facts about its constructors,
tests and destructors. -/
def Source.Datatype.DeclaredIn (d : Datatype) (ds : List Decl) : Prop :=
  ∀ k ∈ d.ctors, (∀ x ∈ k.decls d.path, x ∈ ds) ∧ .fact none (k.structureFact d.path) ∈ ds ∧
    .fact none (k.testFact d.path) ∈ ds

/-- The fields of the constructors have distinct names, which hold no percent sign. -/
def Source.Datatype.FieldsApart (d : Datatype) : Prop :=
  ∀ k ∈ d.ctors, (k.fields.map (·.1)).Nodup ∧ ∀ f ∈ k.fields, '%' ∉ f.1.toList

theorem Source.Ctor.ctorId_notMem {k : Ctor} (hk : ∀ f ∈ k.fields, '%' ∉ f.1.toList) (p : Path)
    (x : String) : Naming.ctorId p x ∉ (sortBinders k.fieldVars).map (·.1) := by
  intro hmem
  simp only [sortBinders, Ctor.fieldVars, List.map_map, List.mem_map, Function.comp_def] at hmem
  obtain ⟨f, hf, heq⟩ := hmem
  have hlist : f.1.toList ++ '%' :: ['a'] = "ctor".toList ++ '%' :: (Naming.ctor p x).toList := by
    simpa [Naming.ctorId] using congrArg String.toList heq
  have hafter := ((List.append_cons_inj_of_notMem (hk f hf) (by decide)).1 hlist).2.2
  have hdot : '.' ∈ (Naming.ctor p x).toList := by simp [Naming.ctor]
  rw [← hafter] at hdot
  exact absurd hdot (by decide)

/-- The variables of the fields of a constructor take the values that they are given. -/
theorem Source.Ctor.eval_fieldVars (k : Ctor) {us : List M.Val} (old σ : M.Valuation)
    (hnodup : (k.fields.map (·.1)).Nodup) (hus : M.FieldValues k us) :
    (k.fieldVars.map fun x => (IL.Expr.var x.1)).map (·.eval old
      (Model.bind (((sortBinders k.fieldVars).map (·.1)).zip us) σ)) = us := by
  have hnames : (sortBinders k.fieldVars).map (·.1) = k.fields.map fun f => f.1 ++ "%a" := by
    simp [sortBinders, Ctor.fieldVars, Function.comp_def]
  have hlen : us.length = (k.fields.map fun f => f.1 ++ "%a").length := by simp [hus.length_eq]
  have hinj : (k.fields.map fun f => f.1 ++ "%a").Nodup := by
    have hmap := hnodup.map (f := (· ++ "%a")) fun x y h => String.append_left_inj _ |>.1 h
    simpa [Function.comp_def] using hmap
  rw [hnames]
  refine List.ext_getElem? fun n => ?_
  simp only [Ctor.fieldVars, List.map_map, List.getElem?_map]
  cases hf : k.fields[n]? with
  | none =>
    rw [List.getElem?_eq_none_iff] at hf
    exact (List.getElem?_eq_none (by rw [← hus.length_eq]; exact hf)).symm
  | some f =>
    exact Model.bind_lastIndex hlen (lastIndex_of_nodup hinj (by simp [hf])) σ

theorem Source.Ctor.eval_applied {k : Ctor} {us : List M.Val} (dt : Path)
    (hnodup : (k.fields.map (·.1)).Nodup) (hus : M.FieldValues k us) :
    (k.applied dt).eval old (Model.bind (((sortBinders k.fieldVars).map (·.1)).zip us) σ) =
      M.app (Naming.ctor dt k.name) us := by
  rw [Ctor.applied, Expr.eval_app, k.eval_fieldVars old σ hnodup hus]

/-- What the fact about the structure of constructed values says of one. -/
theorem Source.Ctor.structure_of_holds {k : Ctor} {us : List M.Val} {dt : Path}
    (hnodup : (k.fields.map (·.1)).Nodup) (hplain : ∀ f ∈ k.fields, '%' ∉ f.1.toList)
    (h : Holds old σ (k.structureFact dt)) (hus : M.FieldValues k us) :
    M.app "DatatypeCtorId" [M.app (Naming.ctor dt k.name) us] = σ (Naming.ctorId dt k.name) ∧
      ∀ (n : Nat) f u, k.fields[n]? = some f → us[n]? = some u →
        M.app (Naming.destructor dt k.name f.1) [M.app (Naming.ctor dt k.name) us] = u := by
  have hassigns : Model.Assigns (sortBinders k.fieldVars) σ
      (Model.bind (((sortBinders k.fieldVars).map (·.1)).zip us) σ) := by
    refine ⟨us, ?_, rfl⟩
    simpa [sortBinders, Ctor.fieldVars, List.forall₂_map_left_iff, Model.FieldValues] using hus
  have hall := (holds_conj _).1 ((holds_all _ _ _).1 h _ hassigns)
  obtain ⟨hid, hrest⟩ := List.forall_mem_cons.1 hall
  refine ⟨?_, fun n f u hf hu => ?_⟩
  · simp only [Ctor.hasId, holds_eq, Prelude.datatypeCtorId, Expr.eval_app, List.map_cons,
      List.map_nil, Expr.eval_var, eval_applied dt hnodup hus] at hid
    rw [hid]
    refine Model.bind_of_notMem ?_
    rw [List.map_fst_zip (by simp [sortBinders, Ctor.fieldVars, hus.length_eq])]
    exact ctorId_notMem hplain dt k.name
  · have hmem : (IL.Expr.eq (.app (Naming.destructor dt k.name f.1) [k.applied dt])
        (.var (f.1 ++ "%a"))) ∈ (k.fields.zip k.fieldVars).map fun q =>
          IL.Expr.eq (.app (Naming.destructor dt k.name q.1.1) [k.applied dt]) (.var q.2.1) := by
      rw [Ctor.fieldVars, Standard.Family.zip_map_self, List.map_map]
      exact List.mem_map.2 ⟨f, List.mem_of_getElem? hf, rfl⟩
    have hfield := hrest _ (List.mem_append_left _ hmem)
    simp only [holds_eq, Expr.eval_app, List.map_cons, List.map_nil,
      eval_applied dt hnodup hus] at hfield
    rw [hfield]
    have hvars := congrArg (·[n]?) (k.eval_fieldVars old σ hnodup hus)
    simpa [Ctor.fieldVars, hf, hu] using hvars

/-- The identifiers of two constructors are distinct constants. -/
theorem Naming.ctorId_ne {dt : Path} {x y : String} (h : x ≠ y) :
    Naming.ctorId dt x ≠ Naming.ctorId dt y := by
  intro heq
  refine h ?_
  simpa [Naming.ctorId, Naming.ctor] using heq

/-- Constructed values are values of datatypes. -/
theorem IL.Model.IsModelOf.carrier_built {ds : List Decl} (hM : M.IsModelOf σ ds)
    (hd : d.DeclaredIn ds) {k : Ctor} (hk : k ∈ d.ctors) {us : List M.Val}
    (hus : M.FieldValues k us) : M.carrier Prelude.datatypeSort (M.built d k us) := by
  have hdecl := hM.satisfies _ ((hd k hk).1 (.func (Naming.ctor d.path k.name)
    (k.fields.map (·.2.sort)) Prelude.datatypeSort) (by simp [Ctor.decls]))
  refine hdecl us ?_
  rw [List.forall₂_map_left_iff]
  exact hus

/-- A model of the declarations of a datatype takes constructed values apart. -/
theorem IL.Model.IsModelOf.constructs {ds : List Decl} (hM : M.IsModelOf σ ds)
    (hd : d.DeclaredIn ds) (hapart : d.FieldsApart) : M.Constructs d where
  carrier hk hus := hM.carrier_built hd hk hus
  test {k us c} hk hus hc := by
    obtain ⟨hnodup, hplain⟩ := hapart k hk
    have hbuilt := (Ctor.structure_of_holds hnodup hplain (hM.satisfies _ (hd k hk).2.1 σ) hus).1
    have hv : M.carrier Prelude.datatypeSort (M.built d k us) :=
      hM.carrier_built hd hk hus
    have hcase := (holds_all _ _ _).1 (hM.satisfies _ (hd c hc).2.2 σ)
      (Function.update σ datatypeVar (M.built d k us))
      (Model.assigns_cons.2 ⟨_, hv, Model.assigns_nil.2 rfl⟩)
    simp only [Ctor.test, Ctor.hasId, holds_eq, Prelude.datatypeCtorId, Expr.eval_app,
      List.map_cons, List.map_nil, Expr.eval_eq, Expr.eval_var, Function.update_self,
      Function.update_of_ne (Standard.Family.ctorId_ne_datatypeVar _ _)] at hcase
    rw [hcase, M.truth_ofProp, Model.built, hbuilt]
    refine ⟨fun heq => ?_, fun heq => by rw [heq]⟩
    by_contra hne
    have hconst {k : Ctor} (hk : k ∈ d.ctors) :
        .uniqueConst (Naming.ctorId d.path k.name) Prelude.ctorIdSort ∈ ds :=
      (hd k hk).1 _ (by simp [Ctor.decls])
    exact hM.distinct (hconst hk) (hconst hc) (Naming.ctorId_ne (Ne.symm hne)) heq
  field {k us n f u} hk hus hf hu := by
    obtain ⟨hnodup, hplain⟩ := hapart k hk
    exact (Ctor.structure_of_holds hnodup hplain (hM.satisfies _ (hd k hk).2.1 σ) hus).2 n f u hf hu

end

/-! ## What patterns hold -/

/-- A variable of a pattern holds a field: they have one sort, unless the type of the field is a
type parameter. -/
def Source.Typ.Holds (t field : Typ) : Prop := field.isBoxed = false → t.sort = field.sort

namespace Source.Pattern

/-- The variables of a pattern in the representations of the fields that they hold. -/
def args (p : Pattern) (k : Ctor) : List IL.Expr :=
  (p.binders.zip k.fields).map fun q => Boxing.convert q.1.2 q.2.2 (.var q.1.1)

/-- The value that a pattern matches. -/
def built (p : Pattern) (dt : Path) (k : Ctor) : IL.Expr := .app (Naming.ctor dt p.ctor) (p.args k)

end Source.Pattern

section

variable {M : Model} {old σ ρ ρ' : M.Valuation} {d : Datatype} {env : Env} {v : View} {s : IL.Expr}
  {k : Ctor} {us : List M.Val}

/-- Names of destructors hold a slash, which those of box functions do not. -/
theorem Boxing.applied?_destructor (dt : Path) (c f : String) (as : List IL.Expr) :
    Boxing.applied? (.app (Naming.destructor dt c f) as) = none := by
  by_contra happlied
  obtain ⟨r, hr⟩ := Option.ne_none_iff_exists'.1 happlied
  have hslash : '/' ∈ (Naming.destructor dt c f).toList := by simp [Naming.destructor]
  obtain ⟨s, a, ⟨heq, -⟩ | ⟨heq, -⟩⟩ := Boxing.applied?_eq_some hr
  all_goals
    rw [(IL.Expr.app.inj heq).1] at hslash
    cases s <;> revert hslash <;> decide

/-- The value of a variable, in the representation of a field that it holds. -/
theorem eval_convert_var {t field : Typ} {x : String} (hholds : t.Holds field) :
    (Boxing.convert t field (.var x)).eval old ρ =
      if field.isBoxed then M.boxed t (ρ x) else ρ x := by
  cases hfield : field.isBoxed with
  | false =>
    rw [Boxing.convert_of_isBoxed_eq (Typ.isBoxed_congr (hholds hfield))]
    rfl
  | true =>
    have hboxed : field.boxSort? = none := by simpa [Typ.isBoxed] using hfield
    cases ht : t.boxSort? with
    | none =>
      rw [Boxing.convert_of_isBoxed_eq (by simp [Typ.isBoxed, hboxed, ht])]
      simp [Model.boxed, ht]
    | some s =>
      rw [Boxing.convert_of_native_to_boxed ht hboxed]
      simp [Boxing.box, Boxing.applied?, Model.boxed, ht]

theorem carrier_boxed (hM : Model.SatisfiesPrelude old σ) {t : Typ} {a : M.Val}
    (ha : M.carrier t.sort a) : M.carrier Prelude.boxSort (M.boxed t a) := by
  unfold Model.boxed
  cases hs : t.boxSort? with
  | none => exact Boxing.sort_of_isBoxed (t := t) (by simp [Typ.isBoxed, hs]) ▸ ha
  | some s =>
    rw [Boxing.sort_of_boxSort? hs] at ha
    exact (Prelude.heaps_of_prelude hM).box_sort s ha

/-- What a destructor gives, in the representation of a variable that holds the field. -/
theorem eval_convert_destructor (hM : Model.SatisfiesPrelude old σ) {t field : Typ} {dt : Path}
    {c f : String} {a : M.Val} (hholds : t.Holds field) (ha : M.carrier t.sort a)
    (hfield : M.app (Naming.destructor dt c f) [s.eval old ρ] =
      if field.isBoxed then M.boxed t a else a) :
    (Boxing.convert field t (.app (Naming.destructor dt c f) [s])).eval old ρ = a := by
  have heval : (IL.Expr.app (Naming.destructor dt c f) [s]).eval old ρ =
      if field.isBoxed then M.boxed t a else a := (Expr.eval_app _ _).trans hfield
  cases hboxed : field.isBoxed with
  | false =>
    rw [Boxing.convert_of_isBoxed_eq (Typ.isBoxed_congr (hholds hboxed)).symm, heval, hboxed]
    rfl
  | true =>
    rw [hboxed, if_pos rfl] at heval
    replace hboxed : field.boxSort? = none := by simpa [Typ.isBoxed] using hboxed
    cases ht : t.boxSort? with
    | none =>
      rw [Boxing.convert_of_isBoxed_eq (by simp [hboxed, Typ.isBoxed, ht]), heval]
      simp [Model.boxed, ht]
    | some b =>
      have happ : (Boxing.unbox t (.app (Naming.destructor dt c f) [s])).eval old ρ =
          M.unboxed t (M.boxed t a) := by
        simp only [Boxing.unbox, ht, Boxing.applied?_destructor]
        rw [Expr.eval_app, List.map_cons, List.map_nil, heval]
        simp [Model.unboxed, ht]
      rw [Boxing.convert_of_boxed_to_native hboxed ht, happ,
        unboxed_boxed hM ha]

/-! ## The selected case -/

/-- The values of the fields that the variables of a pattern say. -/
noncomputable def Source.Pattern.values (p : Pattern) (k : Ctor) (old ρ : M.Valuation) :
    List M.Val :=
  (p.args k).map (·.eval old ρ)

theorem Source.Pattern.eval_built {p : Pattern} (hk : d.ctor p.ctor = .ok k) :
    (p.built d.path k).eval old ρ = M.built d k (p.values k old ρ) := by
  rw [Pattern.built, Expr.eval_app, Model.built, (Datatype.mem_of_ctor hk).2]
  rfl

theorem Source.Pattern.fieldValues {p : Pattern} (hM : Model.SatisfiesPrelude old σ)
    (hholds : List.Forall₂ (fun b f => b.2.Holds f.2) p.binders k.fields)
    (hρ : ∀ b ∈ p.binders, M.carrier b.2.sort (ρ b.1)) :
    M.FieldValues k (p.values k old ρ) := by
  unfold Pattern.values Pattern.args Model.FieldValues
  generalize p.binders = bs at hholds hρ
  generalize k.fields = fs at hholds
  induction hholds with
  | nil => exact .nil
  | @cons b f bs fs hb _ ih =>
    obtain ⟨hcarrier, hρ⟩ := List.forall_mem_cons.1 hρ
    refine .cons ?_ (ih hρ)
    show M.carrier f.2.sort ((Boxing.convert b.2 f.2 (.var b.1)).eval old ρ)
    rw [eval_convert_var hb]
    cases hf : f.2.isBoxed with
    | false => exact hb hf ▸ hcarrier
    | true => exact Boxing.sort_of_isBoxed hf ▸ carrier_boxed hM hcarrier

/-- On the value that a pattern matches, its case binds the variables to the values they have. -/
theorem Source.Pattern.eval_caseBindings {p : Pattern} (hM : Model.SatisfiesPrelude old σ)
    (hd : M.Constructs d) (hk : d.ctor p.ctor = .ok k)
    (hholds : List.Forall₂ (fun b f => b.2.Holds f.2) p.binders k.fields)
    (hρ' : ∀ b ∈ p.binders, M.carrier b.2.sort (ρ' b.1))
    (hs : s.eval old ρ = M.built d k (p.values k old ρ')) {bs : List (String × IL.Expr)}
    (hbs : (caseBindings d d.path p s).Returns env bs) :
    bs.map (fun b => (b.1, b.2.eval old ρ)) = p.binders.map fun b => (b.1, ρ' b.1) := by
  obtain ⟨hmem, hname⟩ := Datatype.mem_of_ctor hk
  simp only [caseBindings, ExprM.returns_bind, ExprM.returns_pure, ExprM.returns_ofExcept, hk,
    Except.ok.injEq, exists_eq_left'] at hbs
  subst hbs
  have hvalues := p.fieldValues hM hholds hρ'
  have hfirst : p.binders.map (fun b => (b.1, ρ' b.1)) =
      (p.binders.zip k.fields).map fun q => (q.1.1, ρ' q.1.1) := by
    conv_lhs => rw [← List.map_fst_zip hholds.length_eq.le, List.map_map]
    rfl
  rw [hfirst, List.map_map]
  refine List.map_congr_left fun q hq => ?_
  obtain ⟨n, hn⟩ := List.mem_iff_getElem?.1 hq
  obtain ⟨hb, hf⟩ := List.getElem?_zip_eq_some.1 hn
  have hq' := (List.forall₂_iff_zip.1 hholds).2 hq
  refine Prod.ext rfl (eval_convert_destructor hM hq' (hρ' _ (List.mem_of_getElem? hb)) ?_)
  rw [hs, ← hname, hd.field hmem hvalues hf (u := (Boxing.convert q.1.2 q.2.2
    (.var q.1.1)).eval old ρ') (by simp [Pattern.values, Pattern.args, hn]), eval_convert_var hq']

/-- The cascade that a match becomes has the value of the first case of the constructor. -/
theorem eval_lowerArms (hd : M.Constructs d) (hk : k ∈ d.ctors) (hus : M.FieldValues k us)
    (hs : s.eval old ρ = M.built d k us) {result : Typ} {arms : List (Pattern × Source.Expr)}
    (harms : ∀ q ∈ arms, ∃ c ∈ d.ctors, c.name = q.1.ctor) {p : Pattern × Source.Expr}
    (hp : arms.find? (·.1.ctor == k.name) = some p) {a : IL.Expr}
    (ha : (lowerArms v d d.path s result arms).Returns env (some a)) :
    ∃ bs b, (caseBindings d d.path p.1 s).Returns env bs ∧ (lowerExpr v p.2).Returns env b ∧
      a.eval old ρ = (Boxing.convert p.2.typ result b).eval old
        (Model.bind (bs.map fun b => (b.1, b.2.eval old ρ)) ρ) := by
  classical
  induction arms generalizing a with
  | nil => cases hp
  | cons q arms ih =>
    obtain ⟨⟨c, hc, hname⟩, harms⟩ := List.forall_mem_cons.1 harms
    simp only [lowerArms, ExprM.returns_bind] at ha
    obtain ⟨o, ho, bs, hbs, b, hb, ha⟩ := ha
    have htest : Holds old ρ (.app (Naming.isCtor d.path q.1.ctor) [s]) ↔ q.1.ctor = k.name := by
      rw [holds_app, List.map_cons, List.map_nil, hs, ← hname]
      exact hd.test hk hus hc
    by_cases hq : q.1.ctor = k.name
    · obtain rfl : q = p := by simpa [hq] using hp
      refine ⟨bs, b, hbs, hb, ?_⟩
      cases o with
      | none =>
        obtain rfl := Option.some.inj (ExprM.returns_pure.1 ha)
        exact Expr.eval_lets _ _
      | some rest =>
        obtain rfl := Option.some.inj (ExprM.returns_pure.1 ha)
        rw [eval_cond, if_pos (htest.2 hq), Expr.eval_lets]
    · have hrest : arms.find? (·.1.ctor == k.name) = some p := by simpa [hq] using hp
      cases o with
      | none =>
        -- only the last case needs no test
        rw [eq_nil_of_lowerArms ho] at hrest
        cases hrest
      | some rest =>
        obtain rfl := Option.some.inj (ExprM.returns_pure.1 ha)
        rw [eval_cond, if_neg (mt htest.1 hq)]
        exact ih harms hrest ho

/-- What holds under a frame, trivial formulas left out. -/
theorem Frame.holds_under {auto : Bool} {fr : Frame} {as : List IL.Expr} :
    (∀ a ∈ fr.under auto as, Holds old ρ a) ↔
      ∀ ρ', fr.Enters old ρ ρ' → ∀ a ∈ as, Holds old ρ' a := by
  simp only [Frame.under, List.mem_filter, List.mem_map, and_imp, forall_exists_index,
    Bool.not_eq_true', forall_apply_eq_imp_iff₂]
  refine ⟨fun h ρ' hρ' a ha => ?_,
    fun h a ha _ => (holds_wrap auto fr a).2 fun ρ' hρ' => h ρ' hρ' a ha⟩
  refine (holds_wrap auto fr a).1 ?_ ρ' hρ'
  cases htrue : (fr.wrap auto a).isTrue with
  | true =>
    rw [Expr.isTrue_iff.1 htrue]
    exact holds_tt
  | false => exact h a ha htrue

/-- The facts of the calls in a match hold those of each case, below the test of its constructor and
the bindings of its variables. -/
theorem returns_armFacts {i : Info} {e : Source.Expr} {arms : List (Pattern × Source.Expr)}
    {ts : List Typ} (hdt : env.context.datatype d.path = .ok d) (htyp : e.typ = .datatype d.path ts)
    (he : (lowerExpr v e).Returns env s) (hk : k ∈ d.ctors) {p : Pattern × Source.Expr}
    (hp : arms.find? (·.1.ctor == k.name) = some p) {as : List IL.Expr}
    (has : (collect .facts v (.cases i e arms)).Returns env as) :
    ∃ bs facts, (caseBindings d d.path p.1 s).Returns env bs ∧
      (collect .facts v p.2).Returns env facts ∧
      ∀ a ∈ (Frame.guard (.app (Naming.isCtor d.path k.name) [s])).under
        env.context.options.autoTriggers ((Frame.bind bs).under
          env.context.options.autoTriggers facts), a ∈ as := by
  obtain ⟨dt, hdt', s', hs', d', hd', first, -, _, ⟨cs, hcs, rfl⟩, rfl⟩ :=
    returns_collect_cases.1 has
  obtain rfl := hdt'.unique (returns_matchedDatatype.2 ⟨ts, htyp⟩)
  obtain rfl : d' = d := Except.ok.inj (hd'.symm.trans hdt)
  obtain rfl := hs'.unique he
  obtain ⟨c, hc, inner, harm, rfl⟩ := exists_of_forall₂ hcs.flip hk
  rw [hp] at harm
  obtain ⟨bs, hbs, facts, hfacts, rfl⟩ := harm
  exact ⟨bs, facts, hbs, hfacts,
    fun a ha => List.mem_append_right _ (List.mem_flatten.2 ⟨_, hc, ha⟩)⟩

/-- If the facts of the calls in a match hold, so do those of the case of the constructor. -/
theorem holds_armFacts (hd : M.Constructs d) (hk : k ∈ d.ctors) (hus : M.FieldValues k us)
    {i : Info} {e : Source.Expr} {arms : List (Pattern × Source.Expr)} {ts : List Typ}
    (hdt : env.context.datatype d.path = .ok d) (htyp : e.typ = .datatype d.path ts)
    (he : (lowerExpr v e).Returns env s) (hs : s.eval old ρ = M.built d k us)
    {p : Pattern × Source.Expr} (hp : arms.find? (·.1.ctor == k.name) = some p)
    {as : List IL.Expr} (has : (collect .facts v (.cases i e arms)).Returns env as)
    (hholds : ∀ a ∈ as, Holds old ρ a) :
    ∃ bs facts, (caseBindings d d.path p.1 s).Returns env bs ∧
      (collect .facts v p.2).Returns env facts ∧
      ∀ a ∈ facts, Holds old (Model.bind (bs.map fun b => (b.1, b.2.eval old ρ)) ρ) a := by
  obtain ⟨bs, facts, hbs, hfacts, hmem⟩ := returns_armFacts hdt htyp he hk hp has
  refine ⟨bs, facts, hbs, hfacts, ?_⟩
  have htest : Holds old ρ (.app (Naming.isCtor d.path k.name) [s]) := by
    rw [holds_app, List.map_cons, List.map_nil, hs]
    exact (hd.test hk hus hk).2 rfl
  have hall := Frame.holds_under.1 (fun a ha => hholds a (hmem a ha)) ρ ⟨htest, rfl⟩
  exact Frame.holds_under.1 hall _ rfl

end

/-! ## The value of a case -/

/-- The expression that builds what a pattern matches. -/
def Source.Pattern.source (p : Pattern) (dt : Path) (t : Typ) : Source.Expr :=
  .ctor ⟨p.span, t⟩ dt p.ctor (p.binders.map fun b => .var ⟨p.span, b.2⟩ b.1)

section

variable {M : Model} {Δ : Vocabulary} {old : M.Valuation} {env : Env} {v : View} {p : Pattern}
  {dt : Path} {d : Datatype} {k : Ctor} {t : Typ}

theorem Source.Pattern.freeVars_source :
    (p.source dt t).freeVars = p.binders.map (·.1) := by
  have hvars (bs : List Source.Binder) :
      Expr.freeVarsList (bs.map fun b => .var ⟨p.span, b.2⟩ b.1) = bs.map (·.1) := by
    induction bs with
    | nil => rfl
    | cons b bs ih => simp [Expr.freeVarsList, Expr.freeVars, ih]
  exact hvars p.binders

theorem returns_lowerArgs_vars {span : Span} {bs fields : List Source.Binder} {as : List IL.Expr} :
    (lowerArgs v fields (bs.map fun b => .var ⟨span, b.2⟩ b.1)).Returns env as ↔
      as = (bs.zip fields).map fun q => Boxing.convert q.1.2 q.2.2 (.var q.1.1) := by
  induction bs generalizing fields as with
  | nil => simp [lowerArgs]
  | cons b bs ih =>
    cases fields with
    | nil => simp [lowerArgs]
    | cons f fields =>
      simp [lowerArgs, lowerExpr, ih, Expr.typ, Expr.info]

/-- The expression is lowered to the constructor applied to the variables. -/
theorem Source.Pattern.returns_source (hd : env.context.datatype dt = .ok d)
    (hk : d.ctor p.ctor = .ok k) {a : IL.Expr} :
    (lowerExpr v (p.source dt t)).Returns env a ↔ a = p.built dt k := by
  simp [Pattern.source, lowerExpr, returns_lowerArgs_vars, hd, hk, Pattern.built, Pattern.args]

theorem collect_vars {span : Span} (bs : List Source.Binder) :
    collectList .facts v (bs.map fun b => .var ⟨span, b.2⟩ b.1) = pure [] := by
  induction bs with
  | nil => rfl
  | cons b bs ih => simp [collectList, collect, ih]

theorem Source.Pattern.facts_source {as : List IL.Expr}
    (h : (collect .facts v (p.source dt t)).Returns env as) : as = [] := by
  rw [Pattern.source] at h
  simpa [collect, collect_vars, collectNode_facts] using h

theorem IL.Expr.sorts?_congr {G G' : Sorts} {es : List IL.Expr}
    (h : ∀ e ∈ es, e.sort? Δ G = e.sort? Δ G') : Expr.sorts? Δ es G = Expr.sorts? Δ es G' := by
  induction es with
  | nil => rfl
  | cons e es ih =>
    obtain ⟨he, hes⟩ := List.forall_mem_cons.1 h
    rw [Expr.sorts?_cons, Expr.sorts?_cons, he, ih hes]

/-- A converted variable is the variable, or one function applied to it. -/
theorem Boxing.convert_var (s t : Typ) (x : String) :
    convert s t (.var x) = .var x ∨ ∃ f, convert s t (.var x) = .app f [.var x] := by
  cases hs : s.boxSort? with
  | none =>
    cases ht : t.boxSort? with
    | none => exact .inl (convert_of_isBoxed_eq (by simp [Typ.isBoxed, hs, ht]))
    | some b =>
      rw [convert_of_boxed_to_native hs ht]
      exact .inr ⟨b.unboxName, by simp [unbox, ht, applied?]⟩
  | some b =>
    cases ht : t.boxSort? with
    | none =>
      rw [convert_of_native_to_boxed hs ht]
      exact .inr ⟨b.boxName, by simp [box, hs, applied?]⟩
    | some c => exact .inl (convert_of_isBoxed_eq (by simp [Typ.isBoxed, hs, ht]))

theorem Boxing.sort?_convert_var {s t : Typ} {x : String} {G G' : Sorts} (h : G x = G' x) :
    (convert s t (.var x)).sort? Δ G = (convert s t (.var x)).sort? Δ G' := by
  obtain heq | ⟨f, heq⟩ := convert_var s t x
  · rw [heq]
    exact h
  · have hvar : Expr.sorts? Δ [.var x] G = Expr.sorts? Δ [.var x] G' :=
      Expr.sorts?_congr (List.forall_mem_singleton.2 h)
    rw [heq, Expr.sort?_app_eq, Expr.sort?_app_eq, hvar]

theorem Source.Pattern.name_ne {y : String} (hy : y ∉ p.binders.map (·.1))
    {q : Source.Binder × Source.Binder} (hq : q ∈ p.binders.zip k.fields) : q.1.1 ≠ y := by
  rintro rfl
  exact hy (List.mem_map_of_mem (List.of_mem_zip hq).1)

/-- What stands for the matched parameter is the same in every view. -/
theorem Source.Pattern.portable (hd : env.context.datatype dt = .ok d)
    (hk : d.ctor p.ctor = .ok k) (hname : '$' ∉ (Naming.ctor dt p.ctor).toList) :
    Portable Δ env old (p.source dt t) (p.built dt k) where
  lower h := (p.returns_source hd hk).1 h
  facts := p.facts_source
  inert := by
    refine ⟨trivial, ?_⟩
    by_contra happlied
    obtain ⟨r, hr⟩ := Option.ne_none_iff_exists'.1 happlied
    obtain ⟨s, a, ⟨heq, -⟩ | ⟨heq, -⟩⟩ := Boxing.applied?_eq_some hr
    all_goals
      rw [Pattern.built, IL.Expr.app.injEq] at heq
      rw [heq.1] at hname
      cases s <;> revert hname <;> decide
  value {y} hy ρ u := by
    rw [freeVars_source] at hy
    rw [Pattern.built, Expr.eval_app, Expr.eval_app]
    refine congrArg _ (List.map_congr_left fun a ha => ?_)
    obtain ⟨q, hq, rfl⟩ := List.mem_map.1 ha
    refine Expr.eval_congr_free fun z hz => ?_
    rw [Boxing.free_convert] at hz
    obtain rfl : z = q.1.1 := by simpa [Expr.free] using hz
    exact Function.update_of_ne (name_ne hy hq) ..
  sort {y} hy G s := by
    rw [freeVars_source] at hy
    rw [Pattern.built, Expr.sort?_app_eq, Expr.sort?_app_eq, Expr.sorts?_congr fun a ha => ?_]
    obtain ⟨q, hq, rfl⟩ := List.mem_map.1 ha
    exact Boxing.sort?_convert_var (Function.update_of_ne (name_ne hy hq) ..)

end

end ContractLowering
