import ContractLowering.Lowering.Class
import ContractLowering.Lowering.Datatype
import ContractLowering.Proofs.Lowering.Extends

/-!
# What the lowering of datatypes and classes emits

Datatypes emit the declarations and facts of their constructors, classes the facts about their
fields, and both the constants and fields they refer to. Every declaration that is emitted has one
of these forms (`Emitted`), and the declarations of all constructors are among them
(`appends_lowerFamily`).
-/

namespace ContractLowering

open IL Source

/-- Lowers datatypes and the fields of classes. -/
def lowerFamily (ds : List Datatype) (cs : List Source.Class) : DeclM Unit := do
  ds.forM Datatype.lower
  cs.forM Source.Class.lowerHead

/-- The declarations of the constructors of datatypes. -/
def ctorDecls (ds : List Datatype) : List Decl :=
  ds.flatMap fun d => d.ctors.flatMap fun k => k.decls d.path

/-- The declarations that the lowering of datatypes and of the fields of classes emits, when
these handles have been given out and these classes have their constants. -/
inductive Emitted (c : Context) (ds : List Datatype) (cs : List Source.Class)
    (handles : List FieldHandle) (classes : List Path) : Decl → Prop
  | ctor {d : Datatype} {k : Ctor} {x : Decl} (hd : d ∈ ds) (hk : k ∈ d.ctors)
    (hx : x ∈ k.decls d.path) : Emitted c ds cs handles classes x
  | structureFact {d : Datatype} {k : Ctor} (hd : d ∈ ds) (hk : k ∈ d.ctors) :
    Emitted c ds cs handles classes (.fact none (k.structureFact d.path))
  | testFact {d : Datatype} {k : Ctor} (hd : d ∈ ds) (hk : k ∈ d.ctors) :
    Emitted c ds cs handles classes (.fact none (k.testFact d.path))
  | builtFact {d : Datatype} {k : Ctor} (hd : d ∈ ds) (hk : k ∈ d.ctors) :
    Emitted c ds cs handles classes (.fact none (k.builtFact d.path))
  | allocFact {d : Datatype} {k : Ctor} (hd : d ∈ ds) (hk : k ∈ d.ctors) {env : Env} {e : IL.Expr}
    (hc : env.context = c) (he : (k.allocFact d.path).Returns env e) :
    Emitted c ds cs handles classes (.fact none e)
  | testsFact {d : Datatype} (hd : d ∈ ds) :
    Emitted c ds cs handles classes (.fact none d.testsFact)
  | cls {p : Path} (hp : p ∈ classes) : Emitted c ds cs handles classes (Request.classDecl p)
  | field {f : Field} {x : Decl} (hf : .ofField f ∈ handles)
    (howner : f.isMutable = true → f.id.owner ∈ classes) (hx : x ∈ Request.fieldDecls f) :
    Emitted c ds cs handles classes x
  | arrayLength : Emitted c ds cs handles classes Request.arrayLengthDecl
  | fieldFact {k : Source.Class} {f : Field} {h : FieldHandle} (hk : k ∈ cs) (hf : f ∈ k.fields)
    (hh : h ∈ handles) (hid : h.id = f.id) {env : Env} {clause : IL.Expr} (hc : env.context = c)
    (hclause : (whereClause f.typ (Heap.readField (.var Naming.heapParam) Heap.obj h)
      (.var Naming.heapParam)).Returns env (some clause)) (trigger : Trigger) :
    Emitted c ds cs handles classes (.fact none
      (.all [(Naming.heapParam, Prelude.heapSort), (Naming.objVar, Prelude.refSort)] [trigger]
        (.imp (.conj [Prelude.isGoodHeap (.var Naming.heapParam),
          Heap.nonNullAlloc (.var Naming.heapParam) Heap.obj,
          .eq (Prelude.dtype Heap.obj) (.var (Naming.cls k.path))]) clause)))

variable {c : Context} {ds : List Datatype} {cs : List Source.Class}

theorem Emitted.mono {handles handles' : List FieldHandle} {classes classes' : List Path} {d : Decl}
    (hh : handles ⊆ handles') (hc : classes ⊆ classes') (h : Emitted c ds cs handles classes d) :
    Emitted c ds cs handles' classes' d := by
  cases h with
  | ctor hd hk hx => exact .ctor hd hk hx
  | structureFact hd hk => exact .structureFact hd hk
  | testFact hd hk => exact .testFact hd hk
  | builtFact hd hk => exact .builtFact hd hk
  | allocFact hd hk hc he => exact .allocFact hd hk hc he
  | testsFact hd => exact .testsFact hd
  | cls hp => exact .cls (hc hp)
  | field hf howner hx => exact .field (hh hf) (fun h => hc (howner h)) hx
  | arrayLength => exact .arrayLength
  | fieldFact hk hf hh' hid hctx hclause trigger =>
    exact .fieldFact hk hf (hh hh') hid hctx hclause trigger

/-! ## Growing programs -/

/-- One state comes after another: declarations of the family were emitted, those of each new handle
and the constant of each new class among them. -/
structure Appends (c : Context) (ds : List Datatype) (cs : List Source.Class) (s s' : Progress)
    (new : List Decl) : Prop where
  emitted : s'.emitted.rev = new.reverse ++ s.emitted.rev
  known : ∀ d ∈ new, Emitted c ds cs s'.handles s'.classes d
  handles : ∃ hs, s'.handles = hs ++ s.handles ∧
    (∀ h ∈ hs, ∃ f, h = .ofField f ∧ Request.fieldDecls f ⊆ new) ∧
    (hs.map (·.name)).reverse.Sublist (new.filterMap Decl.name?)
  classes : ∃ ps, s'.classes = ps ++ s.classes ∧ ∀ p ∈ ps, Request.classDecl p ∈ new

namespace Appends

variable {s s₁ s' : Progress} {new new' : List Decl}

theorem refl (s : Progress) : Appends c ds cs s s [] where
  emitted := rfl
  known := nofun
  handles := ⟨[], by simp⟩
  classes := ⟨[], by simp⟩

theorem handles_subset (h : Appends c ds cs s s' new) : s.handles ⊆ s'.handles := by
  obtain ⟨hs, hhs, -⟩ := h.handles
  simp [hhs]

theorem classes_subset (h : Appends c ds cs s s' new) : s.classes ⊆ s'.classes := by
  obtain ⟨ps, hps, -⟩ := h.classes
  simp [hps]

theorem trans (h : Appends c ds cs s s₁ new) (h' : Appends c ds cs s₁ s' new') :
    Appends c ds cs s s' (new ++ new') where
  emitted := by simp [h'.emitted, h.emitted]
  known d hd := (List.mem_append.1 hd).elim
    (fun hd => (h.known d hd).mono h'.handles_subset h'.classes_subset) (h'.known d)
  handles := by
    obtain ⟨hs, hhs, hfields, hsub⟩ := h.handles
    obtain ⟨hs', hhs', hfields', hsub'⟩ := h'.handles
    refine ⟨hs' ++ hs, by simp [hhs', hhs], ?_, ?_⟩
    · intro h hh
      rcases List.mem_append.1 hh with hh | hh
      · obtain ⟨f, hf, hsubset⟩ := hfields' h hh
        exact ⟨f, hf, List.subset_append_of_subset_right _ hsubset⟩
      · obtain ⟨f, hf, hsubset⟩ := hfields h hh
        exact ⟨f, hf, List.subset_append_of_subset_left _ hsubset⟩
    · simpa [List.filterMap_append] using hsub.append hsub'
  classes := by
    obtain ⟨ps, hps, hmem⟩ := h.classes
    obtain ⟨ps', hps', hmem'⟩ := h'.classes
    refine ⟨ps' ++ ps, by simp [hps', hps], fun p hp => ?_⟩
    exact List.mem_append.2 ((List.mem_append.1 hp).symm.imp (hmem p) (hmem' p))

/-- Declarations are emitted, and no handles and constants of classes are given out. -/
theorem of_eq (handles : s'.handles = s.handles) (classes : s'.classes = s.classes)
    (emitted : s'.emitted.rev = new.reverse ++ s.emitted.rev)
    (known : ∀ d ∈ new, Emitted c ds cs s.handles s.classes d) : Appends c ds cs s s' new where
  emitted := emitted
  known d hd := by
    rw [handles, classes]
    exact known d hd
  handles := ⟨[], by simp [handles]⟩
  classes := ⟨[], by simp [classes]⟩

theorem emit {d : Decl} (hd : Emitted c ds cs s.handles s.classes d) :
    Appends c ds cs s (s.emit d) [d] :=
  .of_eq rfl rfl rfl (by simpa using hd)

theorem declareClass (c : Context) (ds : List Datatype) (cs : List Source.Class) (s : Progress)
    (p : Path) :
    ∃ new, Appends c ds cs s (s.declareClass p) new ∧ p ∈ (s.declareClass p).classes := by
  unfold Progress.declareClass
  split
  · rename_i h
    exact ⟨[], .refl s, by simpa using h⟩
  · refine ⟨[Request.classDecl p], ?_, by simp⟩
    exact {
      emitted := rfl
      known := by simpa using .cls List.mem_cons_self
      handles := ⟨[], by simp [Progress.emit]⟩
      classes := ⟨[p], rfl, by simp⟩ }

theorem ask (s : Progress) (r : Request) : Appends c ds cs s (s.ask r) [] :=
  .of_eq rfl rfl rfl nofun

/-- The handle of a field in a state, or the one it gets next. -/
def handle (s : Progress) (f : Field) : FieldHandle :=
  (s.handles.find? (·.id = f.id)).getD (.ofField f)

theorem id_handle (s : Progress) (f : Field) : (handle s f).id = f.id := by
  unfold handle
  cases h : s.handles.find? (·.id = f.id) with
  | none => rfl
  | some found => simpa using List.find?_some h

theorem declareField (c : Context) (ds : List Datatype) (cs : List Source.Class) (s : Progress)
    (f : Field) :
    ∃ new, Appends c ds cs s (s.declareField f) new ∧ handle s f ∈ (s.declareField f).handles := by
  unfold Progress.declareField
  split
  · rename_i h
    obtain ⟨hd, hmem, hid⟩ := List.any_eq_true.1 h
    obtain ⟨found, hfound⟩ : ∃ found, s.handles.find? (·.id = f.id) = some found :=
      Option.isSome_iff_exists.1 (List.find?_isSome.2 ⟨hd, hmem, hid⟩)
    refine ⟨[], .refl s, ?_⟩
    rw [handle, hfound]
    exact List.mem_of_find?_eq_some hfound
  rename_i hnone
  dsimp only
  -- the state in which the field is declared, with the constant of its class if it needs one
  obtain ⟨s₁, new, hs₁, hnew, howner⟩ : ∃ s₁ new,
      (if f.isMutable = true then (s.ask (.cls f.id.owner)).declareClass f.id.owner else s) = s₁ ∧
      Appends c ds cs s s₁ new ∧ (f.isMutable = true → f.id.owner ∈ s₁.classes) := by
    split
    · obtain ⟨new, hnew, hmem⟩ := declareClass c ds cs
        (s.ask (.cls f.id.owner)) f.id.owner
      exact ⟨_, _, rfl, (ask s _).trans hnew, fun _ => hmem⟩
    · rename_i hf
      exact ⟨s, [], rfl, .refl s, fun h => absurd h hf⟩
  rw [hs₁]
  refine ⟨new ++ Request.fieldDecls f, hnew.trans ⟨Progress.rev_extend _ _, ?_, ?_, ?_⟩, ?_⟩
  · exact fun d hd => .field List.mem_cons_self howner hd
  · refine ⟨[.ofField f], rfl, ?_, ?_⟩
    · exact List.forall_mem_singleton.2 ⟨f, rfl, List.Subset.refl _⟩
    unfold Request.fieldDecls
    split <;> simp [FieldHandle.ofField, Decl.name?]
  · exact ⟨[], rfl, by simp⟩
  · have hfound : s.handles.find? (·.id = f.id) = none := by simpa using hnone
    rw [handle, hfound]
    exact List.mem_cons_self

theorem declare (c : Context) (ds : List Datatype) (cs : List Source.Class) (s : Progress)
    (r : Request) : ∃ new, Appends c ds cs s (s.declare r) new := by
  cases r with
  | cls p =>
    obtain ⟨new, hnew, -⟩ := declareClass c ds cs (s.ask (.cls p)) p
    exact ⟨_, (ask s _).trans hnew⟩
  | field f =>
    obtain ⟨new, hnew, -⟩ := declareField c ds cs (s.ask (.field f)) f
    exact ⟨_, (ask s _).trans hnew⟩
  | arrayLength =>
    show ∃ new, Appends c ds cs s (s.ask .arrayLength).declareArrayLength new
    unfold Progress.declareArrayLength
    split
    · exact ⟨[], ask s _⟩
    · exact ⟨[Request.arrayLengthDecl], .of_eq rfl rfl rfl (by simpa using .arrayLength)⟩

theorem declareAll (c : Context) (ds : List Datatype) (cs : List Source.Class) (s : Progress)
    (rs : List Request) :
    ∃ new, Appends c ds cs s (rs.foldl Progress.declare s) new := by
  induction rs generalizing s with
  | nil => exact ⟨[], .refl s⟩
  | cons r rs ih =>
    obtain ⟨new, hnew⟩ := declare c ds cs s r
    obtain ⟨new', hnew'⟩ := ih (s.declare r)
    exact ⟨new ++ new', hnew.trans hnew'⟩

end Appends

/-! ## Computations -/

/-- A computation emits declarations of a family, and some of them in an order. -/
def DeclM.Appends (c : Context) (ds : List Datatype) (cs : List Source.Class) (must : List Decl)
    {α : Type} (x : DeclM α) : Prop :=
  ∀ ⦃s a s'⦄, x.Gives c s a s' →
    ∃ new, ContractLowering.Appends c ds cs s s' new ∧ must.Sublist new

namespace DeclM.Appends

variable {α β : Type} {must must' : List Decl}

theorem pure (a : α) : DeclM.Appends c ds cs [] (Pure.pure a : DeclM α) := by
  intro s b s' h
  obtain ⟨-, rfl⟩ := gives_pure.1 h
  exact ⟨[], .refl s', .slnil⟩

theorem bind {x : DeclM α} {f : α → DeclM β} (hx : DeclM.Appends c ds cs must x)
    (hf : ∀ a, DeclM.Appends c ds cs must' (f a)) :
    DeclM.Appends c ds cs (must ++ must') (x >>= f) := by
  intro s b s' h
  obtain ⟨a, s₁, hgives, hgives'⟩ := gives_bind.1 h
  obtain ⟨new, hnew, hmust⟩ := hx hgives
  obtain ⟨new', hnew', hmust'⟩ := hf a hgives'
  exact ⟨new ++ new', hnew.trans hnew', hmust.append hmust'⟩

/-- An expression is lowered in the context, and what it asks for is declared. -/
theorem ofExpr_bind {x : ExprM α} {f : α → DeclM β}
    (hf : ∀ env a, env.context = c → x.Returns env a → DeclM.Appends c ds cs must (f a)) :
    DeclM.Appends c ds cs must (ofExpr x >>= f) := by
  intro s b s' h
  obtain ⟨a, s₁, hgives, hgives'⟩ := gives_bind.1 h
  obtain ⟨hreturns, rfl⟩ := gives_ofExpr.1 hgives
  obtain ⟨new, hnew⟩ := ContractLowering.Appends.declareAll c ds cs s
    (x (s.env c)).requests
  obtain ⟨new', hnew', hmust⟩ := hf _ a rfl hreturns hgives'
  exact ⟨new ++ new', hnew.trans hnew', hmust.trans (List.sublist_append_right ..)⟩

theorem emit {d : Decl} (hd : Emitted c ds cs [] [] d) :
    DeclM.Appends c ds cs [d] (DeclM.emit d) := by
  intro s u s' h
  obtain rfl := gives_emit.1 h
  exact ⟨[d], .emit (hd.mono (List.nil_subset _) (List.nil_subset _)), .refl _⟩

theorem weaken {x : DeclM α} (hx : DeclM.Appends c ds cs must x) :
    DeclM.Appends c ds cs [] x := by
  intro s a s' h
  obtain ⟨new, hnew, -⟩ := hx h
  exact ⟨new, hnew, List.nil_sublist _⟩

theorem forM {l : List α} {f : α → DeclM Unit} (must : α → List Decl)
    (hf : ∀ a ∈ l, DeclM.Appends c ds cs (must a) (f a)) :
    DeclM.Appends c ds cs (l.flatMap must) (l.forM f) := by
  induction l with
  | nil => exact pure _
  | cons a l ih =>
    exact bind (hf a List.mem_cons_self) fun _ => ih fun b hb => hf b (List.mem_cons_of_mem _ hb)

/-- A computation for each element, none of which has to emit something. -/
theorem forM_nil {l : List α} {f : α → DeclM Unit}
    (hf : ∀ a ∈ l, DeclM.Appends c ds cs [] (f a)) : DeclM.Appends c ds cs [] (l.forM f) :=
  (forM (fun _ => []) hf).weaken

theorem within {span : Span} {module : String} {member : Option Path} {x : DeclM α}
    (hx : DeclM.Appends c ds cs must x) :
    DeclM.Appends c ds cs must (DeclM.within span module member x) := by
  intro s a s' h
  obtain ⟨t, -, hgives, rfl⟩ := gives_within.1 h
  obtain ⟨new, hnew, hmust⟩ := hx hgives
  exact ⟨new, ⟨hnew.emitted, hnew.known, hnew.handles, hnew.classes⟩, hmust⟩

end DeclM.Appends

/-! ## Datatypes and classes -/

open DeclM.Appends (emit ofExpr_bind)

theorem appends_emitFacts {d : Datatype} (hd : d ∈ ds) {k : Ctor} (hk : k ∈ d.ctors) :
    DeclM.Appends c ds cs [] (k.emitFacts d.path) := by
  have halloc : DeclM.Appends c ds cs [] (do DeclM.emitFact (← k.allocFact d.path)) :=
    ofExpr_bind fun env a hc ha => (emit (.allocFact hd hk hc ha)).weaken
  exact (DeclM.Appends.bind (emit (.structureFact hd hk)) fun _ =>
    .bind (emit (.testFact hd hk)) fun _ => .bind (emit (.builtFact hd hk)) fun _ => halloc).weaken

theorem appends_datatype {d : Datatype} (hd : d ∈ ds) :
    DeclM.Appends c ds cs (d.ctors.flatMap fun k => k.decls d.path) d.lower := by
  have hdecls : DeclM.Appends c ds cs (d.ctors.flatMap fun k => k.decls d.path)
      (d.ctors.forM fun k => (k.decls d.path).forM DeclM.emit) := by
    refine .forM _ fun k hk => ?_
    simpa using DeclM.Appends.forM (fun x => [x]) fun x hx => emit (.ctor hd hk hx)
  have hfacts : DeclM.Appends c ds cs [] (d.ctors.forM fun k => k.emitFacts d.path) :=
    .forM_nil fun k hk => appends_emitFacts hd hk
  have htests : DeclM.Appends c ds cs []
      (if d.ctors.length > 1 then DeclM.emitFact d.testsFact else pure ()) := by
    split
    · exact (emit (.testsFact hd)).weaken
    · exact .pure _
  refine .within ?_
  simpa using hdecls.bind fun _ => hfacts.bind fun _ => htests

/-- The fact about a field is emitted when the field has its handle. -/
theorem appends_field {k : Source.Class} (hk : k ∈ cs) {f : Field} (hf : f ∈ k.fields) :
    DeclM.Appends c ds cs [] (do (← k.fieldFact? f).forM DeclM.emitFact) := by
  intro s u s' h
  obtain ⟨o, s₁, hgives, hgives'⟩ := DeclM.gives_bind.1 h
  obtain ⟨hreturns, rfl⟩ := (DeclM.gives_ofExpr (x := k.fieldFact? f)).1 hgives
  obtain ⟨rs, hrs⟩ : ∃ rs, (k.fieldFact? f (s.env c)).requests = .field f :: rs := ⟨_, rfl⟩
  rw [hrs, List.foldl_cons] at hgives'
  obtain ⟨new, hnew, hhandle⟩ :=
    Appends.declareField c ds cs (s.ask (.field f)) f
  obtain ⟨new', hnew'⟩ :=
    Appends.declareAll c ds cs (s.declare (.field f)) rs
  have hgrown := ((Appends.ask s (.field f)).trans hnew).trans hnew'
  have hmem : Appends.handle s f ∈ (rs.foldl Progress.declare (s.declare (.field f))).handles :=
    hnew'.handles_subset hhandle
  simp only [Source.Class.fieldFact?, ExprM.returns_bind, Heap.returns_fieldHandle] at hreturns
  obtain ⟨_, rfl, clause, hclause, ho⟩ := hreturns
  cases clause with
  | none =>
    obtain rfl := ExprM.returns_pure.1 ho
    obtain ⟨-, rfl⟩ := DeclM.gives_pure.1 hgives'
    exact ⟨_, hgrown, List.nil_sublist _⟩
  | some clause =>
    simp only [ExprM.returns_bind, Heap.returns_dtypeIs, exists_eq_left, ExprM.returns_pure] at ho
    subst ho
    obtain rfl := DeclM.gives_emit.1 hgives'
    exact ⟨_, hgrown.trans (.emit (.fieldFact hk hf hmem (Appends.id_handle s f) rfl hclause _)),
      List.nil_sublist _⟩

theorem appends_class {k : Source.Class} (hk : k ∈ cs) :
    DeclM.Appends c ds cs [] k.lowerHead :=
  .within (ofExpr_bind fun _ _ _ _ => .forM_nil fun _ hf => appends_field hk hf)

/-- The lowering of a family emits its declarations, those of the constructors among them. -/
theorem appends_lowerFamily : DeclM.Appends c ds cs (ctorDecls ds) (lowerFamily ds cs) := by
  have hclasses : DeclM.Appends c ds cs [] (cs.forM Source.Class.lowerHead) :=
    .forM_nil fun k hk => appends_class hk
  simpa [ctorDecls, lowerFamily] using
    (DeclM.Appends.forM _ fun d hd => appends_datatype hd).bind fun _ => hclasses

end ContractLowering
