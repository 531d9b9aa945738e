import ContractLowering.Proofs.Lowering.Family
import ContractLowering.Proofs.Standard.Constructors
import ContractLowering.Proofs.Standard.Prelude

/-!
# Consistency

What datatypes and the fields of classes emit has a model together with the prelude, namely the
standard model of the family (`family_consistent`). In it the heap without objects is good, so that
good heaps need not have all objects allocated.

The facts hold no lambda abstraction, so the model may take all lambdas for one. It has to: the
prelude makes every lambda a set of boxes, and these fit into boxes.
-/

namespace ContractLowering

open IL Source

/-! ## Models of declarations -/

/-- What a declaration says of a model and of the values of constants. Sorts are not empty, and
functions respect their sorts. -/
def IL.Model.Satisfies (M : Model) (ρ : M.Valuation) : Decl → Prop
  | .sort x => ∃ v, M.carrier (.named x) v
  | .const x s | .uniqueConst x s | .var x s => M.carrier s (ρ x)
  | .func f ss s => ∀ as, List.Forall₂ M.carrier ss as → M.carrier s (M.app f as)
  | .fact _ e => ∀ old, Holds old ρ e
  | .procedure _ | .implementation _ => True

/-- Declarations have a model: all of them are satisfied, and unique constants of one sort are
distinct. -/
structure IL.Model.IsModelOf (M : Model) (ρ : M.Valuation) (ds : List Decl) : Prop where
  satisfies : ∀ d ∈ ds, M.Satisfies ρ d
  distinct : ∀ {x y s}, .uniqueConst x s ∈ ds → .uniqueConst y s ∈ ds → x ≠ y → ρ x ≠ ρ y

namespace Standard

open Prelude

/-! ## Values of constants -/

theorem sort_default_named {x : String} (hx : x ∈ sorts) :
    (Val.default (.named x)).sort = .named x := by
  simp only [sorts, List.mem_cons, List.not_mem_nil, or_false] at hx
  rcases hx with rfl | rfl | rfl | rfl | rfl | rfl | rfl | rfl | rfl | rfl | rfl <;> rfl

theorem sort_default_typ (t : Typ) : (Val.default t.sort).sort = t.sort := by
  cases t <;> rfl

theorem sort_constant {s : Srt} (x : String) (hs : (Val.default s).sort = s) :
    (constant s x).sort = s := by
  unfold constant
  split
  · rename_i h
    rw [h]
    rfl
  split
  · rename_i h
    rw [h]
    rfl
  split
  · rename_i h
    rw [h]
    rfl
  · exact hs

/-- Constants of the prelude have one of its sorts. -/
theorem sort_constant_prelude {x : String} {s : Srt} (h : (x, s) ∈ Standard.constants) :
    (constant s x).sort = s := by
  have hsorts : ∀ c ∈ Standard.constants, ∃ y ∈ sorts, c.2 = .named y := by decide
  obtain ⟨y, hy, rfl⟩ := hsorts _ h
  exact sort_constant x (sort_default_named hy)

/-- The sorts whose constants stand for themselves. -/
def uniqueSorts : List Srt := [classNameSort, ctorIdSort, fieldSort]

theorem constant_inj {s : Srt} (hs : s ∈ uniqueSorts) {x y : String}
    (h : constant s x = constant s y) : x = y := by
  simp only [uniqueSorts, List.mem_cons, List.not_mem_nil, or_false] at hs
  rcases hs with rfl | rfl | rfl
  · exact Val.cls.inj h
  · exact Val.ctorId.inj h
  · exact Fld.named.inj (Val.field.inj h)

/-- No two constants of the prelude have one sort. -/
theorem constants_inj {x y : String} {s : Srt} (hx : (x, s) ∈ Standard.constants)
    (hy : (y, s) ∈ Standard.constants) : x = y := by
  have h : ∀ a ∈ Standard.constants, ∀ b ∈ Standard.constants, a.2 = b.2 → a.1 = b.1 := by decide
  exact h _ hx _ hy rfl

theorem mem_constants_of_known {d : Decl} {x : String} {s : Srt} (hd : isKnown d = true)
    (h : constant? d = some (x, s)) : (x, s) ∈ Standard.constants := by
  cases d <;> simp_all [constant?, isKnown]

theorem name?_of_constant? {d : Decl} {c : String × Srt} (h : constant? d = some c) :
    d.name? = some c.1 := by
  cases d <;> simp_all [constant?, Decl.name?] <;> simp [← h]

theorem name?_of_function? {d : Decl} {c : String × Srt} (h : function? d = some c) :
    d.name? = some c.1 := by
  cases d <;> simp_all [function?, Decl.name?]
  simp [← h]

theorem satisfies_fact {I : Interp} {ρ : String → Val} {name : Option String} {e : IL.Expr}
    (h : ∀ old, IsTrue I old ρ e) : (model I).Satisfies ρ (.fact name e) := h

/-- What some declarations are looked up by are their names. -/
theorem map_fst_sublist {β : Type} {f : Decl → Option (String × β)}
    (hf : ∀ {d p}, f d = some p → d.name? = some p.1) (ds : List Decl) :
    ((ds.filterMap f).map (·.1)).Sublist (ds.filterMap Decl.name?) := by
  induction ds with
  | nil => exact .slnil
  | cons d ds ih =>
    cases h : f d with
    | none =>
      rw [List.filterMap_cons_none h]
      exact ih.trans ((List.sublist_cons_self d ds).filterMap _)
    | some p =>
      rw [List.filterMap_cons_some h, List.filterMap_cons_some (hf h), List.map_cons]
      exact ih.cons_cons _

/-- Distinct declarations have distinct names. -/
theorem eq_of_name? {ds : List Decl} (h : (ds.filterMap Decl.name?).Nodup) {d d' : Decl}
    {x : String} (hd : d ∈ ds) (hd' : d' ∈ ds) (hx : d.name? = some x)
    (hx' : d'.name? = some x) : d = d' := by
  have hsymm : Std.Symm fun a b : Decl =>
      ∀ x, a.name? = some x → ∀ y, b.name? = some y → x ≠ y :=
    ⟨fun _ _ hab y hy x hx => (hab x hx y hy).symm⟩
  by_contra hne
  exact (List.pairwise_filterMap.1 h).forall hd hd' hne x hx x hx' rfl

/-- The sorts of emitted functions have values. -/
theorem sort_default_func {c : Context} {ds : List Datatype} {cs : List Source.Class}
    {handles : List FieldHandle} {classes : List Path} {f : String} {ss : List Srt} {s : Srt}
    (h : Emitted c ds cs handles classes (.func f ss s)) : (Val.default s).sort = s := by
  generalize hd : Decl.func f ss s = d at h
  cases h with
  | @ctor dt k _ _ _ hx =>
    subst hd
    simp only [Ctor.decls, List.mem_append, List.mem_cons, List.not_mem_nil, or_false,
      List.mem_map, reduceCtorEq, false_or, Decl.func.injEq] at hx
    rcases hx with (⟨-, -, rfl⟩ | ⟨-, -, rfl⟩) | ⟨g, -, -, -, rfl⟩
    · rfl
    · rfl
    · exact sort_default_typ _
  | @field g _ _ _ hx =>
    subst hd
    unfold Request.fieldDecls at hx
    split at hx
    · simp at hx
    · simp only [List.mem_singleton, Decl.func.injEq] at hx
      rw [hx.2.2]
      exact sort_default_typ _
  | cls | structureFact | testFact | builtFact | allocFact | testsFact | arrayLength | fieldFact =>
    cases hd

/-- The names that the prelude declares. -/
theorem Declare.names {ds : List Decl} {ks : List (String × Kind)} {es : List IL.Expr}
    (h : Declare ds ks es) : ds.filterMap Decl.name? = ks.map (·.1) := by
  rw [← h.kinds, List.map_filterMap]
  refine List.filterMap_congr fun d hd => ?_
  have hknown := h.known d hd
  cases d with
  | fact name e => cases name <;> simp_all [isKnown, kindOf?, Decl.name?]
  | procedure | implementation => simp [isKnown] at hknown
  | _ => rfl

/-! ## Families with their declarations -/

/-- A family comes with the declarations of the standard prelude, and with all declarations that its
datatypes and classes emit. -/
structure Family.Emits (F : Family) (prelude new : List Decl) (classes : List Path) : Prop where
  decls : F.decls = prelude ++ new
  declare : Declare prelude standardKinds facts
  names : ((prelude ++ new).filterMap Decl.name?).Nodup
  known : ∀ d ∈ new, Emitted F.context F.datatypes F.classes F.handles classes d
  ctorDecls : (ctorDecls F.datatypes).Sublist new
  handles : (F.handles.map (·.name)).reverse.Sublist (new.filterMap Decl.name?)
  fields : ∀ h ∈ F.handles, ∃ f, h = .ofField f ∧ Request.fieldDecls f ⊆ new
  classDecl : ∀ p ∈ classes, Request.classDecl p ∈ new
  plain : ∀ d ∈ F.datatypes, ∀ k ∈ d.ctors, ∀ f ∈ k.fields, '%' ∉ f.1.toList

theorem Family.exists_of_mem_ctors {F : Family} {e : Path × Ctor} (he : e ∈ F.ctors) :
    ∃ d ∈ F.datatypes, ∃ k ∈ d.ctors, e = (d.path, k) := by
  obtain ⟨d, hd, he⟩ := List.mem_flatMap.1 he
  obtain ⟨k, hk, rfl⟩ := List.mem_map.1 he
  exact ⟨d, hd, k, hk, rfl⟩

/-- The functions of constructors are declared in order. -/
theorem Family.symbols_sublist (F : Family) : ((F.ctors.flatMap F.symbols).map (·.1)).Sublist
    ((ctorDecls F.datatypes).filterMap Decl.name?) := by
  have hctor (p : Path) (k : Ctor) : ((F.symbols (p, k)).map (·.1)).Sublist
      ((k.decls p).filterMap Decl.name?) := by
    simp [Family.symbols, Ctor.decls, Decl.name?, List.filterMap_map, Function.comp_def]
  simp only [Family.ctors, ctorDecls, List.flatMap_assoc, List.flatMap_map, List.map_flatMap,
    List.filterMap_flatMap]
  exact .flatMap_right _ fun d _ => .flatMap_right _ fun k _ => hctor d.path k

/-- The functions of constructors take values of the sorts they are declared with. -/
theorem Family.symbol_declared {F : Family} {p : String × (List Val → Val)}
    (hp : p ∈ F.ctors.flatMap F.symbols) : ∃ ss s, .func p.1 ss s ∈ ctorDecls F.datatypes ∧
      ∀ args, (p.2 args).sort = s := by
  obtain ⟨e, he, hp⟩ := List.mem_flatMap.1 hp
  obtain ⟨d, hd, k, hk, rfl⟩ := exists_of_mem_ctors he
  have hdecl {x : Decl} (hx : x ∈ k.decls d.path) : x ∈ ctorDecls F.datatypes :=
    List.mem_flatMap.2 ⟨d, hd, List.mem_flatMap.2 ⟨k, hk, hx⟩⟩
  simp only [symbols, List.mem_cons, List.mem_map] at hp
  rcases hp with rfl | rfl | ⟨f, hf, rfl⟩
  · exact ⟨_, _, hdecl (List.mem_append_left _ List.mem_cons_self), fun _ => rfl⟩
  · have htest : Decl.func (Naming.isCtor d.path k.name) [datatypeSort] .bool ∈ k.decls d.path :=
      List.mem_append_left _ (.tail _ (.tail _ (.head _)))
    exact ⟨_, _, hdecl htest, fun _ => rfl⟩
  · have hdestructor : _ ∈ k.decls d.path :=
      List.mem_append_right _ (List.mem_map_of_mem hf)
    exact ⟨_, _, hdecl hdestructor, fun _ => sort_unboxed _ _⟩

section

variable (F : Family) (st : Store) (r : Ref) {ρ : String → Val}

theorem Family.location_heap : F.location st r Naming.heapParam = .heap st := by
  rw [location, Function.update_of_ne (by decide), Function.update_self]

theorem Family.location_obj : F.location st r Naming.objVar = .ref r := by
  rw [location, Function.update_self]

/-- The valuations of a heap and an object. -/
theorem Family.assigns_location :
    Model.Assigns (M := model F.interp) [(Naming.heapParam, heapSort), (Naming.objVar, refSort)]
      F.constants ρ ↔ ∃ st r, ρ = F.location st r := by
  constructor
  · intro hρ
    obtain ⟨v, hv, hρ⟩ := Model.assigns_cons.1 hρ
    obtain ⟨st, rfl⟩ := Val.sort_eq_heap.1 hv
    obtain ⟨w, hw, hρ⟩ := Model.assigns_cons.1 hρ
    obtain ⟨r, rfl⟩ := Val.sort_eq_ref.1 hw
    exact ⟨st, r, Model.assigns_nil.1 hρ⟩
  · rintro ⟨st, r, rfl⟩
    exact Model.assigns_cons.2 ⟨.heap st, rfl,
      Model.assigns_cons.2 ⟨.ref r, rfl, Model.assigns_nil.2 rfl⟩⟩

end

/-- What the test for good heaps says. -/
theorem Family.isTrue_isGoodHeap {F : Family} {old ρ : String → Val} {x : String} {st : Store}
    (hx : ρ x = .heap st) :
    IsTrue F.interp old ρ (isGoodHeap (.var x)) ↔ st.intact ∧ F.Good st := by
  rw [show isGoodHeap (.var x) = .app Op.isGoodHeap.name [.var x] from rfl, isTrue_op]
  simp [Op.eval, hx, Val.ofProp_eq_true, Val.toStore, interp]

namespace Family.Emits

variable {F : Family} {prelude new : List Decl} {classes : List Path} {old : String → Val}
  (hF : F.Emits prelude new classes)

include hF

/-! ### Names -/

theorem constants_eq {d : Decl} {x : String} {s : Srt} (hd : d ∈ prelude ++ new)
    (h : constant? d = some (x, s)) : F.constants x = constant s x := by
  have hnodup := (map_fst_sublist name?_of_constant? _).nodup hF.names
  unfold constants
  rw [hF.decls, lookup_of_mem hnodup (List.mem_filterMap.2 ⟨d, hd, h⟩)]
  rfl

theorem mem_preludeNames (op : Op) : op.name ∈ prelude.filterMap Decl.name? := by
  have hop : ∀ op ∈ Op.all, op.name ∈ standardKinds.map (·.1) := by decide +kernel
  rw [hF.declare.names]
  exact hop op op.mem_all

/-- Emitted names are no names of functions of the prelude. -/
theorem fresh {x : String} (hx : x ∈ new.filterMap Decl.name?) : Op.ofName? x = none := by
  cases h : Op.ofName? x with
  | none => rfl
  | some op =>
    have hname : op.name = x := Op.name_of_ofName? h
    have hnodup := hF.names
    rw [List.filterMap_append] at hnodup
    exact absurd hx (hname ▸ (List.nodup_append'.1 hnodup).2.2 (hF.mem_preludeNames op))

theorem proper : F.Proper := by
  have hdecls : ((F.ctors.flatMap F.symbols).map (·.1)).Sublist
      (new.filterMap Decl.name?) :=
    F.symbols_sublist.trans (hF.ctorDecls.filterMap Decl.name?)
  have hnodup := hF.names
  rw [List.filterMap_append] at hnodup
  refine ⟨hdecls.nodup (List.nodup_append'.1 hnodup).2.1, fun p hp => ?_, fun e he => ?_,
    fun e he f hf => ?_⟩
  · exact hF.fresh (hdecls.subset (List.mem_map_of_mem hp))
  · obtain ⟨d, hd, k, hk, rfl⟩ := exists_of_mem_ctors he
    have hdecl : Decl.uniqueConst (Naming.ctorId d.path k.name) ctorIdSort ∈
        ContractLowering.ctorDecls F.datatypes :=
      List.mem_flatMap.2 ⟨d, hd, List.mem_flatMap.2 ⟨k, hk, by simp [Ctor.decls]⟩⟩
    exact hF.constants_eq (List.mem_append_right _ (hF.ctorDecls.subset hdecl)) rfl
  · obtain ⟨d, hd, k, hk, rfl⟩ := exists_of_mem_ctors he
    exact hF.plain d hd k hk f hf

/-- The constants of the prelude have their values. -/
theorem constant_eq {x : String} {s : Srt} (h : (x, s) ∈ Standard.constants) :
    F.constants x = constant s x := by
  have hkinds : ∀ c ∈ Standard.constants,
      (c.1, Kind.const) ∈ standardKinds ∨ (c.1, Kind.var) ∈ standardKinds := by decide +kernel
  have hnames : (Standard.constants.map (·.1)).Nodup := by decide
  have hkind := hkinds _ h
  rw [← hF.declare.kinds, List.mem_filterMap, List.mem_filterMap, ← exists_or] at hkind
  obtain ⟨d, hd⟩ := hkind
  have hmem : d ∈ prelude := hd.elim And.left And.left
  obtain ⟨t, ht⟩ : ∃ t, constant? d = some (x, t) := by
    cases d <;> simp_all [kindOf?, constant?]
  have heq : (x, t) = (x, s) :=
    List.inj_on_of_nodup_map hnames (mem_constants_of_known (hF.declare.known d hmem) ht) h rfl
  obtain rfl : t = s := congrArg Prod.snd heq
  exact hF.constants_eq (List.mem_append_left _ hmem) ht

theorem hasConstants : HasConstants F.constants where
  alloc := hF.constant_eq (s := fieldSort) (by decide)
  noSet := hF.constant_eq (s := setSort) (by decide)
  noMultiset := hF.constant_eq (s := multisetSort) (by decide)
  noSeq := hF.constant_eq (s := seqSort) (by decide)
  noMap := hF.constant_eq (s := mapSort) (by decide)

/-! ### The prelude -/

theorem satisfies_prelude {d : Decl} (hd : d ∈ prelude) :
    (model F.interp).Satisfies F.constants d := by
  have hknown := hF.declare.known d hd
  cases d with
  | sort x => exact ⟨_, sort_default_named (by simpa [isKnown] using hknown)⟩
  | const x s | uniqueConst x s | var x s =>
    have hmem : (x, s) ∈ Standard.constants := mem_constants_of_known hknown rfl
    exact (congrArg Val.sort (hF.constant_eq hmem)).trans (sort_constant_prelude hmem)
  | func f ss s =>
    intro as _
    obtain ⟨op, hop, rfl⟩ := Option.map_eq_some_iff.1 (by simpa [isKnown] using hknown)
    exact sort_app hop as
  | fact name e =>
    have hconstants := hF.hasConstants
    exact fun old => hF.declare.holds (isTrue_facts hconstants.alloc hconstants.noSet
      hconstants.noMultiset hconstants.noSeq hconstants.noMap) hd
  | procedure | implementation => trivial

/-! ### Emitted declarations -/

theorem nodup_new : (new.filterMap Decl.name?).Nodup := by
  have hnodup := hF.names
  rw [List.filterMap_append] at hnodup
  exact (List.nodup_append'.1 hnodup).2.1

/-- Emitted functions take values of their sorts. -/
theorem sort_func {f : String} {ss : List Srt} {s : Srt} (hf : .func f ss s ∈ new)
    (args : List Val) : (F.func f args).sort = s := by
  unfold func
  cases hg : (F.ctors.flatMap F.symbols).lookup f with
  | some g =>
    obtain ⟨l, l', hsymbols, -⟩ := List.lookup_eq_some_iff.1 hg
    obtain ⟨ss', s', hdecl, hsort⟩ := symbol_declared (F := F) (p := (f, g)) (by simp [hsymbols])
    have heq : Decl.func f ss s = .func f ss' s' :=
      eq_of_name? hF.nodup_new hf (hF.ctorDecls.subset hdecl) rfl rfl
    rw [(Decl.func.inj heq).2.2]
    exact hsort args
  | none =>
    have hlookup : (F.decls.filterMap function?).lookup f = some s := by
      rw [hF.decls]
      exact lookup_of_mem ((map_fst_sublist name?_of_function? _).nodup hF.names)
        (p := (f, s)) (List.mem_filterMap.2 ⟨_, List.mem_append_right _ hf, rfl⟩)
    rw [hlookup]
    exact sort_default_func (hF.known _ hf)

theorem owner_eq {f : Field} (hf : .ofField f ∈ F.handles) :
    F.owner (Naming.field f.id) = Naming.cls f.id.owner := by
  have hnodup : (F.handles.map (·.name)).Nodup :=
    List.nodup_reverse.1 (hF.handles.nodup hF.nodup_new)
  obtain ⟨hd, hfound⟩ : ∃ hd, F.handles.find? (·.name = Naming.field f.id) = some hd :=
    Option.isSome_iff_exists.1 (List.find?_isSome.2 ⟨_, hf, by simp [FieldHandle.ofField]⟩)
  have hname : hd.name = Naming.field f.id := by simpa using List.find?_some hfound
  obtain rfl : hd = .ofField f :=
    List.inj_on_of_nodup_map hnodup (List.mem_of_find?_eq_some hfound) hf hname
  simp [owner, hfound, FieldHandle.ofField]

/-- Names of emitted declarations whose constants stand for themselves. -/
theorem constants_unique {x : String} {s : Srt} (hx : .uniqueConst x s ∈ new) :
    F.constants x = constant s x :=
  hF.constants_eq (List.mem_append_right _ hx) rfl

theorem satisfies_func {f : String} {ss : List Srt} {s : Srt} (hf : .func f ss s ∈ new) :
    (model F.interp).Satisfies F.constants (.func f ss s) := by
  intro as _
  have hfresh : Op.ofName? f = none := hF.fresh (List.mem_filterMap.2 ⟨_, hf, rfl⟩)
  exact (congrArg Val.sort (app_func hfresh as)).trans (hF.sort_func hf as)

theorem satisfies_ctor {d : Datatype} (hd : d ∈ F.datatypes) {k : Ctor} (hk : k ∈ d.ctors)
    {x : Decl} (hx : x ∈ k.decls d.path) : (model F.interp).Satisfies F.constants x := by
  have hnew : x ∈ new :=
    hF.ctorDecls.subset (List.mem_flatMap.2 ⟨d, hd, List.mem_flatMap.2 ⟨k, hk, hx⟩⟩)
  simp only [Ctor.decls, List.cons_append, List.nil_append, List.mem_cons, List.mem_map] at hx
  rcases hx with rfl | rfl | rfl | ⟨f, -, rfl⟩
  · exact hF.satisfies_func hnew
  · exact congrArg Val.sort (hF.constants_unique hnew)
  · exact hF.satisfies_func hnew
  · exact hF.satisfies_func hnew

theorem fieldDecls_subset {f : Field} (hf : .ofField f ∈ F.handles) :
    Request.fieldDecls f ⊆ new := by
  obtain ⟨g, hfg, hsubset⟩ := hF.fields _ hf
  have hid : f.id = g.id := congrArg FieldHandle.id hfg
  have hmutable : f.isMutable = g.isMutable := congrArg FieldHandle.isMutable hfg
  have htyp : f.typ = g.typ := congrArg FieldHandle.typ hfg
  unfold Request.fieldDecls at hsubset ⊢
  rwa [hid, hmutable, htyp]

/-- The constant of a mutable field stands for itself. -/
theorem field_eq {f : Field} (hf : .ofField f ∈ F.handles) (hmutable : f.isMutable = true) :
    F.constants (Naming.field f.id) = .field (.named (Naming.field f.id)) := by
  have hdecl : Decl.uniqueConst (Naming.field f.id) fieldSort ∈ new :=
    hF.fieldDecls_subset hf (by simp [Request.fieldDecls, hmutable])
  exact hF.constants_unique hdecl

theorem cls_eq {p : Path} (hp : p ∈ classes) :
    F.constants (Naming.cls p) = .cls (Naming.cls p) :=
  hF.constants_unique (hF.classDecl p hp)

theorem satisfies_field {f : Field} (hf : .ofField f ∈ F.handles)
    (howner : f.isMutable = true → f.id.owner ∈ classes) {x : Decl}
    (hx : x ∈ Request.fieldDecls f) : (model F.interp).Satisfies F.constants x := by
  have hnew : x ∈ new := hF.fieldDecls_subset hf hx
  unfold Request.fieldDecls at hx
  split at hx
  · rename_i hmutable
    have hfield := hF.field_eq hf hmutable
    simp only [List.mem_cons, List.not_mem_nil, or_false] at hx
    rcases hx with rfl | rfl | rfl
    · exact congrArg Val.sort hfield
    · refine satisfies_fact fun old => ?_
      show IsTrue F.interp old F.constants
        (.eq (.app Op.fieldDim.name [.var (Naming.field f.id)]) (.nat 0))
      rw [isTrue_eq, value_op, value_nat]
      simp [Op.eval, hfield, Val.toFld, Fld.dim]
    · refine satisfies_fact fun old => ?_
      show IsTrue F.interp old F.constants
        (.eq (.app Op.declType.name [.var (Naming.field f.id)]) (.var (Naming.cls f.id.owner)))
      rw [isTrue_eq, value_op, value_var, hF.cls_eq (howner hmutable), ← hF.owner_eq hf]
      simp [Op.eval, hfield, Val.toFld, interp]
  · obtain rfl := List.mem_singleton.1 hx
    exact hF.satisfies_func hnew

omit hF in
theorem satisfies_arrayLength :
    (model F.interp).Satisfies F.constants Request.arrayLengthDecl := by
  refine satisfies_fact fun old => ?_
  show IsTrue F.interp old F.constants (.all [("$a", refSort)] _
    (.le (.nat 0) (.app Op.arrayLength.name [.var "$a"])))
  rw [isTrue_all_one]
  intro v _
  rw [isTrue_le, value_nat, value_op]
  simp [Op.eval, Val.toInt]

/-- The value of a field that a fact reads. -/
theorem value_readField {h : FieldHandle} (hh : h ∈ F.handles) {st : Store} {r : Ref}
    {ρ : String → Val} (hρ : WhereClause.Away 0 (F.location st r) ρ) :
    value F.interp old ρ (Heap.readField (.var Naming.heapParam) Heap.obj h) =
      F.fieldValue h st r := by
  obtain ⟨f, rfl, hsubset⟩ := hF.fields h hh
  have hheap : ρ Naming.heapParam = .heap st :=
    (hρ.generated not_generated_heapParam).trans (F.location_heap st r)
  have hobj : ρ Naming.objVar = .ref r :=
    (hρ.generated (not_generated_of_plain (by decide) (by decide))).trans (F.location_obj st r)
  unfold Heap.readField fieldValue
  split
  · rename_i hmutable
    refine value_unbox rfl ?_
    show value F.interp old ρ (.app Op.read.name
      [.var Naming.heapParam, .var Naming.objVar, .var (Naming.field f.id)]) = _
    rw [value_op]
    simp [Op.eval, hheap, hobj, hρ.generated (not_generated_field f.id), Val.toStore, Val.toRef,
      FieldHandle.ofField]
  · rename_i hmutable
    have hdecl : Decl.func (Naming.field f.id) [refSort] f.typ.sort ∈ new := by
      have himmutable : f.isMutable = false := by simpa [FieldHandle.ofField] using hmutable
      exact hsubset (by simp [Request.fieldDecls, himmutable])
    have hfresh : Op.ofName? (Naming.field f.id) = none :=
      hF.fresh (List.mem_filterMap.2 ⟨_, hdecl, rfl⟩)
    refine (value_func hfresh _).trans ?_
    simp [Heap.obj, hobj, interp, FieldHandle.ofField]

/-- The fields of allocated objects have their types in good heaps. -/
theorem isTrue_fieldFact {k : Source.Class} (hk : k ∈ F.classes) {f : Field} (hf : f ∈ k.fields)
    {h : FieldHandle} (hh : h ∈ F.handles) (hid : h.id = f.id) {env : Env} {clause : IL.Expr}
    (hc : env.context = F.context)
    (hclause : (whereClause f.typ (Heap.readField (.var Naming.heapParam) Heap.obj h)
      (.var Naming.heapParam)).Returns env (some clause)) (trigger : Trigger) :
    IsTrue F.interp old F.constants
      (.all [(Naming.heapParam, heapSort), (Naming.objVar, refSort)] [trigger]
        (.imp (.conj [isGoodHeap (.var Naming.heapParam),
          Heap.nonNullAlloc (.var Naming.heapParam) Heap.obj,
          .eq (dtype Heap.obj) (.var (Naming.cls k.path))]) clause)) := by
  rw [isTrue_all]
  intro ρ hρ
  obtain ⟨st, r, rfl⟩ := F.assigns_location.1 hρ
  rw [isTrue_imp, isTrue_conj]
  intro hpremises
  simp only [List.forall_mem_cons, Heap.nonNullAlloc, isTrue_conj, IL.Expr.ne,
    isTrue_neg] at hpremises
  obtain ⟨hgood, ⟨hnull, halloc, -⟩, hdtype, -⟩ := hpremises
  have hs : Settled F.interp old (F.location st r) 0 (.var Naming.heapParam)
      (Heap.readField (.var Naming.heapParam) Heap.obj h) st (F.fieldValue h st r) :=
    ⟨fun ρ hρ => (hρ.generated not_generated_heapParam).trans (F.location_heap st r),
      fun ρ hρ => hF.value_readField hh hρ⟩
  refine (isTrue_clause (.refl 0 _) hs hclause).2 ?_ clause rfl
  rw [hc]
  have hvalue : value F.interp old (F.location st r) Heap.obj = .ref r :=
    F.location_obj st r
  rw [isTrue_eq, hvalue] at hnull
  rw [isTrue_isAlloc (hs.heap _ (.refl _ _)) rfl, hvalue] at halloc
  rw [isTrue_dtype rfl, hvalue] at hdtype
  have htyped : F.Good st := ((isTrue_isGoodHeap (F.location_heap _ _)).1 hgood).2
  exact htyped k hk f hf h hh hid r hnull halloc hdtype

theorem satisfies_new {x : Decl} (hnew : x ∈ new) :
    (model F.interp).Satisfies F.constants x := by
  have hctor {d : Datatype} (hd : d ∈ F.datatypes) {k : Ctor} (hk : k ∈ d.ctors) :
      (d.path, k) ∈ F.ctors :=
    List.mem_flatMap.2 ⟨d, hd, List.mem_map_of_mem hk⟩
  cases hF.known x hnew with
  | ctor hd hk hx => exact hF.satisfies_ctor hd hk hx
  | structureFact hd hk =>
    exact satisfies_fact fun _ => isTrue_structureFact hF.proper (hctor hd hk)
  | testFact hd hk => exact satisfies_fact fun _ => isTrue_testFact hF.proper (hctor hd hk)
  | builtFact hd hk => exact satisfies_fact fun _ => isTrue_builtFact hF.proper (hctor hd hk)
  | allocFact hd hk hc he =>
    exact satisfies_fact fun _ => isTrue_allocFact hF.proper (hctor hd hk) hc he
  | testsFact hd => exact satisfies_fact fun _ => isTrue_testsFact hF.proper hd
  | cls hp => exact congrArg Val.sort (hF.cls_eq hp)
  | field hf howner hx => exact hF.satisfies_field hf howner hx
  | arrayLength => exact satisfies_arrayLength
  | fieldFact hk hf hh hid hc hclause trigger =>
    exact satisfies_fact fun _ => hF.isTrue_fieldFact hk hf hh hid hc hclause trigger

/-- The sorts of emitted constants. -/
theorem mem_uniqueSorts {x : String} {s : Srt} (hnew : .uniqueConst x s ∈ new) :
    s ∈ uniqueSorts := by
  generalize hd : Decl.uniqueConst x s = d at hnew
  cases hF.known d hnew with
  | ctor _ _ hx =>
    subst hd
    simp only [Ctor.decls, List.mem_append, List.mem_cons, List.not_mem_nil, or_false,
      List.mem_map, reduceCtorEq, and_false, exists_false, false_or, Decl.uniqueConst.injEq] at hx
    rw [hx.2]
    decide
  | cls =>
    cases hd
    decide
  | field _ _ hx =>
    subst hd
    unfold Request.fieldDecls at hx
    split at hx
    · simp only [List.mem_cons, List.not_mem_nil, or_false, reduceCtorEq,
        Decl.uniqueConst.injEq] at hx
      rw [hx.2]
      decide
    · simp at hx
  | structureFact | testFact | builtFact | allocFact | testsFact | arrayLength | fieldFact =>
    cases hd

/-- The family has the standard model, together with the prelude. -/
theorem isModelOf : (model F.interp).IsModelOf F.constants (prelude ++ new) where
  satisfies d hd := (List.mem_append.1 hd).elim hF.satisfies_prelude hF.satisfies_new
  distinct {x y s} hx hy hne heq := by
    rw [hF.constants_eq hx rfl, hF.constants_eq hy rfl] at heq
    -- constants of other sorts come from the prelude, which has one of each
    by_cases hs : s ∈ uniqueSorts
    · exact hne (constant_inj hs heq)
    · have hprelude {z : String} (hz : .uniqueConst z s ∈ prelude ++ new) :
          (z, s) ∈ Standard.constants := by
        have hmem := (List.mem_append.1 hz).resolve_right fun h => hs (hF.mem_uniqueSorts h)
        exact mem_constants_of_known (hF.declare.known _ hmem) rfl
      exact hne (constants_inj (hprelude hx) (hprelude hy))

end Family.Emits

/-! ## Heaps without objects -/

/-- In the heap without objects no object is allocated. -/
theorem not_isAllocated_emptyStore (ν : String → Val) (v : Val) :
    ¬ IsAllocated ν Val.emptyStore v := by
  have hfalse : Val.unbox .bool (Val.toCode (.bool false)) = .bool false := Val.unbox_toCode rfl
  intro h
  exact absurd (hfalse.symm.trans h) (by simp)

/-- That a heap is good and an object is not allocated in it. -/
def someFresh : IL.Expr :=
  .ex [(Naming.heapParam, heapSort), (Naming.objVar, refSort)] []
    (.conj [isGoodHeap (.var Naming.heapParam), Heap.isFresh (.var Naming.heapParam) Heap.obj])

theorem Family.isTrue_someFresh {F : Family} (hnull : F.constants "null" = .ref .null)
    (old : String → Val) : IsTrue F.interp old F.constants someFresh := by
  rw [someFresh, isTrue_ex]
  refine ⟨F.location Val.emptyStore (.object "" 0 0), F.assigns_location.2 ⟨_, _, rfl⟩, ?_⟩
  have hheap : value F.interp old (F.location Val.emptyStore (.object "" 0 0))
      (.var Naming.heapParam) = .heap Val.emptyStore :=
    F.location_heap Val.emptyStore (.object "" 0 0)
  have hobj : value F.interp old (F.location Val.emptyStore (.object "" 0 0)) Heap.obj =
      .ref (.object "" 0 0) := F.location_obj Val.emptyStore (.object "" 0 0)
  have hconstant : value F.interp old (F.location Val.emptyStore (.object "" 0 0)) null =
      .ref .null := by
    rw [null, value_var, location, Function.update_of_ne (by decide),
      Function.update_of_ne (by decide), hnull]
  have hgood : F.Good Val.emptyStore := fun _ _ _ _ _ _ _ _ _ halloc =>
    absurd halloc (not_isAllocated_emptyStore _ _)
  simp only [isTrue_conj, List.forall_mem_cons, Heap.isFresh, IL.Expr.ne, isTrue_neg, isTrue_eq]
  refine ⟨(isTrue_isGoodHeap hheap).2 ⟨trivial, hgood⟩, ⟨?_, ?_, List.forall_mem_nil _⟩,
    List.forall_mem_nil _⟩
  · rw [hobj, hconstant]
    simp
  · rw [isTrue_isAlloc hheap rfl]
    exact not_isAllocated_emptyStore _ _

end Standard

/-- What a family of datatypes and classes emits is consistent with the prelude, if names are
distinct: sorts that are not empty, functions and constants exist with which all facts are true and
unique constants distinct. And that not only because all objects are allocated in good heaps. -/
theorem family_consistent {prelude : IL.Program}
    (hprelude : Prelude.load Prelude.standardText = .ok prelude) {c : Context}
    {ds : List Datatype} {cs : List Source.Class} {s : Progress}
    (hlower : (lowerFamily ds cs).Gives c { emitted := .extend .empty prelude } () s)
    (hnames : (s.emitted.build.filterMap Decl.name?).Nodup)
    (hplain : ∀ d ∈ ds, ∀ k ∈ d.ctors, ∀ f ∈ k.fields, '%' ∉ f.1.toList) :
    ∃ (M : Model) (ρ : M.Valuation), M.IsModelOf ρ s.emitted.build ∧
      ∀ old, Holds old ρ Standard.someFresh := by
  obtain ⟨new, hnew, hctors⟩ := appends_lowerFamily hlower
  obtain ⟨hs, hhandles, hfields, hsub⟩ := hnew.handles
  obtain ⟨ps, hclasses, hclass⟩ := hnew.classes
  obtain ⟨ds', hload, hdeclare⟩ := Standard.load_standard
  obtain rfl : prelude = ds' := Except.ok.inj (hprelude.symm.trans hload)
  have hbuild : s.emitted.build = prelude ++ new := by
    simp [IL.ProgramBuilder.build, hnew.emitted, Progress.rev_extend, IL.ProgramBuilder.empty]
  rw [hbuild] at hnames ⊢
  obtain rfl : s.handles = hs := by simpa using hhandles
  obtain rfl : s.classes = ps := by simpa using hclasses
  let F : Standard.Family := ⟨c, ds, cs, s.handles, prelude ++ new⟩
  have hF : F.Emits prelude new s.classes :=
    { decls := rfl, declare := hdeclare, names := hnames, known := hnew.known, ctorDecls := hctors,
      handles := hsub, fields := hfields, classDecl := hclass, plain := hplain }
  have hnull : F.constants "null" = .ref .null :=
    hF.constant_eq (s := Prelude.refSort) (by decide)
  exact ⟨Standard.model F.interp, F.constants, hF.isModelOf, Standard.Family.isTrue_someFresh hnull⟩

/-! Trees, which hold sequences of trees, and a class whose objects hold a tree. -/

namespace Forest

/-- The datatype of trees. -/
def tree : Datatype where
  path := ⟨"M", ["Tree"]⟩
  span := default
  typParams := []
  ctors := [⟨"Leaf", default, []⟩,
    ⟨"Branch", default,
      [("value", .int), ("children", .seq (.datatype ⟨"M", ["Tree"]⟩ [])),
       ("next", .datatype ⟨"M", ["Tree"]⟩ [])]⟩]

/-- The class of objects that hold a tree. -/
def holder : Source.Class where
  path := ⟨"M", ["Holder"]⟩
  span := default
  typParams := []
  fields := [⟨⟨⟨"M", ["Holder"]⟩, "tree"⟩, default, .datatype ⟨"M", ["Tree"]⟩ [], true⟩]
  functions := []
  methods := []

def context : Context := { datatypes := [tree], classes := [holder], fields := holder.fields }

/-- The state after lowering. -/
def lowered (prelude : IL.Program) : Progress :=
  (lowerFamily [tree] [holder] context { emitted := .extend .empty prelude }).2

theorem gives_lowered (prelude : IL.Program) :
    (lowerFamily [tree] [holder]).Gives context { emitted := .extend .empty prelude } ()
      (lowered prelude) :=
  Prod.ext rfl rfl

/-- The names that are declared. -/
def names : List String :=
  (ctorDecls [tree]).filterMap Decl.name? ++ Naming.cls holder.path ::
    holder.fields.map fun f => Naming.field f.id

theorem names_lowered (prelude : IL.Program) :
    (lowered prelude).emitted.build.filterMap Decl.name? =
      prelude.filterMap Decl.name? ++ names := by
  have hrev (b : IL.ProgramBuilder) :
      (lowerFamily [tree] [holder] context { emitted := b }).2.emitted.rev.filterMap Decl.name? =
        names.reverse ++ b.rev.filterMap Decl.name? := by
    cbv
  rw [IL.ProgramBuilder.build, List.filterMap_reverse, lowered, hrev, Progress.rev_extend]
  simp [IL.ProgramBuilder.empty]

end Forest

theorem family_consistent_forest : ∃ prelude, Prelude.load Prelude.standardText = .ok prelude ∧
    ∃ (M : Model) (ρ : M.Valuation), M.IsModelOf ρ (Forest.lowered prelude).emitted.build ∧
      ∀ old, Holds old ρ Standard.someFresh := by
  obtain ⟨prelude, hload, hdeclare⟩ := Standard.load_standard
  refine ⟨prelude, hload, family_consistent hload (Forest.gives_lowered prelude) ?_ (by decide)⟩
  rw [Forest.names_lowered, hdeclare.names]
  decide +kernel

end ContractLowering
