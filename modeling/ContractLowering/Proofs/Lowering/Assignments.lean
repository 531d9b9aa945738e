import ContractLowering.Proofs.Lowering.Flow
import ContractLowering.Proofs.Lowering.FunctionReads
import ContractLowering.Proofs.Lowering.Hygiene
import ContractLowering.Proofs.Lowering.Stores
import ContractLowering.Proofs.Lowering.Writing

/-!
# Parallel assignments

An assignment to several targets evaluates the parts of all targets and all values into numbered
locals, compares the targets, and stores. Stores in evaluated targets mention nothing that a store
writes, and where the comparisons hold no two of them disagree on a location. So they are
independent, and each target holds the value that was computed for it, in whatever order they are
made (`parallel_assignment`).
-/

namespace ContractLowering

open IL Source

/-! ## What computations leave -/

/-- A local of the implementation that is being built has a sort, unless there is a clash. -/
def Progress.HasLocal (s : Progress) (x : String) (srt : Srt) : Prop :=
  s.decl.clash = none → (x, srt) ∈ s.decl.locals

theorem Progress.Extends.hasLocal {s s' : Progress} {x : String} {srt : Srt} (h : s.Extends s')
    (hx : s.HasLocal x srt) : s'.HasLocal x srt :=
  fun hclash => h.locals.subset (hx (h.clash hclash))

theorem Progress.hasLocal_declareLocal (s : Progress) (x : String) (srt : Srt) :
    Progress.HasLocal { s with decl := s.decl.declareLocal x srt } x srt := by
  intro hclash
  dsimp only at hclash ⊢
  cases hlookup : s.decl.locals.lookup x with
  | none =>
    rw [DeclState.declareLocal, hlookup]
    exact List.mem_append_right _ (List.mem_singleton_self _)
  | some before =>
    obtain ⟨l, l', hl, -⟩ := List.lookup_eq_some_iff.1 hlookup
    rw [DeclState.declareLocal, hlookup] at hclash ⊢
    dsimp only at hclash ⊢
    split at hclash
    · rename_i hsame
      rcases Bool.or_eq_true_iff.1 hsame with hsame | hsome
      · rw [if_pos ‹_›, ← of_decide_eq_true hsame, hl]
        simp
      · rw [hclash] at hsome
        cases hsome
    · cases hclash

namespace BodyM

variable {α β : Type} {c : Context}

/-- A computation only adds to the state, and what it returns has a property in the state it leads
to. -/
def Leaves (x : BodyM α) (c : Context) (V : Progress → α → Prop) : Prop :=
  ∀ ⦃s a ss s'⦄, x.Emits c s a ss s' → s.Extends s' ∧ V s' a

namespace Leaves

/-- What is kept when the state grows. -/
def Kept (V : Progress → α → Prop) : Prop := ∀ ⦃s s' a⦄, s.Extends s' → V s a → V s' a

theorem pure {V : Progress → α → Prop} {a : α} (h : ∀ s, V s a) :
    (Pure.pure a : BodyM α).Leaves c V := by
  intro s b ss s' hb
  obtain ⟨rfl, rfl, rfl⟩ := emits_pure.1 hb
  exact ⟨.refl _, h _⟩

/-- What the second computation returns may depend on what the first one leaves. -/
theorem bind {V : Progress → α → Prop} {W : Progress → β → Prop} {x : BodyM α} {f : α → BodyM β}
    (hx : x.Leaves c V) (hV : Kept V) (hf : ∀ a, (f a).Leaves c fun s b => V s a → W s b) :
    (x >>= f).Leaves c W := by
  intro s b ss s' h
  obtain ⟨a, s₁, ss₁, ss₂, ha, hb, rfl⟩ := emits_bind.1 h
  obtain ⟨hs, hVa⟩ := hx ha
  obtain ⟨hs', hWb⟩ := hf a hb
  exact ⟨hs.trans hs', hWb (hV hs' hVa)⟩

/-- A value that an expression lowering returns. -/
theorem ofExpr {V : α → Prop} {x : ExprM α} (hV : ∀ s : Progress, ∀ a, x.Returns (s.env c) a → V a) :
    (BodyM.ofDecl (DeclM.ofExpr x)).Leaves c fun _ => V := by
  intro s a ss s' h
  obtain ⟨⟨ha, rfl⟩, -⟩ := emits_expr.1 h
  exact ⟨s.extends_foldl_declare _, hV s a ha⟩

theorem reject_bind {V : Progress → β → Prop} {m : Message} {f : α → BodyM β} :
    (BodyM.ofDecl (DeclM.reject m) >>= f).Leaves c V := by
  intro s b ss s' h
  obtain ⟨a, s₁, hreject, -⟩ := emits_decl_bind.1 h
  exact (DeclM.gives_reject hreject).elim

/-- A step of which only its value is known. -/
theorem andThen {V : α → Prop} {W : Progress → β → Prop} {x : BodyM α} {f : α → BodyM β}
    (hx : x.Lays c (.writing fun _ => True) V) (hf : ∀ a, V a → (f a).Leaves c W) :
    (x >>= f).Leaves c W := by
  intro s b ss s' h
  obtain ⟨a, s₁, ss₁, ss₂, ha, hb, rfl⟩ := emits_bind.1 h
  obtain ⟨hs, -, hVa⟩ := hx trivial ha
  obtain ⟨hs', hWb⟩ := hf a hVa hb
  exact ⟨hs.trans hs', hWb⟩

theorem mono {V W : Progress → α → Prop} {x : BodyM α} (h : x.Leaves c V)
    (hVW : ∀ s a, V s a → W s a) : x.Leaves c W :=
  fun _ _ _ _ hx => (h hx).imp id (hVW _ _)

theorem mapM {V : Progress → α → β → Prop} {f : α → BodyM β} {l : List α}
    (hf : ∀ a ∈ l, (f a).Leaves c fun s b => V s a b) (hV : ∀ a, Kept fun s b => V s a b) :
    (l.mapM f).Leaves c fun s bs => List.Forall₂ (V s) l bs := by
  induction l with
  | nil => exact pure fun _ => .nil
  | cons a l ih =>
    rw [List.mapM_cons]
    refine (hf a (by simp)).bind (hV a) fun b => (ih fun a ha => hf a (by simp [ha])).bind ?_
      fun bs => pure fun s hbs hb => .cons hb hbs
    intro s s' bs hs hbs
    exact hbs.imp fun a b hab => hV a hs hab

end Leaves

/-- A value is kept in a numbered local of its sort. -/
theorem temp_leaves (srt : Srt) (e : IL.Expr) : (BodyM.temp srt e).Leaves c fun s x =>
    ∃ n, x = .var (Naming.temp n) ∧ s.HasLocal (Naming.temp n) srt := by
  intro s x ss s' h
  refine ⟨((Writing.temp ⟨fun _ _ => trivial, trivial⟩ srt e :
    (BodyM.temp srt e).Lays c (.writing fun _ => True) _) trivial h).1, ?_⟩
  simp only [BodyM.temp, BodyM.storeIn, emits_decl_bind, BodyM.assign, emits_add_bind,
    emits_pure] at h
  obtain ⟨n, s₁, -, _, s₂, hdeclare, _, ⟨rfl, -, rfl⟩, -⟩ := h
  refine ⟨n, rfl, ?_⟩
  cases hdeclare
  exact s₁.hasLocal_declareLocal _ _

theorem kept_temp (srt : Srt) : Leaves.Kept fun (s : Progress) (x : IL.Expr) =>
    ∃ n, x = .var (Naming.temp n) ∧ s.HasLocal (Naming.temp n) srt := by
  rintro s s' x hs ⟨n, rfl, hn⟩
  exact ⟨n, rfl, hs.hasLocal hn⟩

/-- The handle of a field is the one it was declared with. -/
theorem fieldHandle_leaves (f : Field) :
    (BodyM.ofDecl (DeclM.ofExpr (Heap.fieldHandle f))).Leaves c fun s h =>
      h ∈ s.handles ∧ h.id = f.id := by
  intro s h ss s' hcode
  obtain ⟨⟨hreturns, rfl⟩, -⟩ := emits_expr.1 hcode
  replace hreturns : h = (s.handles.find? (·.id = f.id)).getD (.ofField f) :=
    Heap.returns_fieldHandle.1 hreturns
  have hextends : s.Extends (s.declare (.field f)) := s.extends_declare _
  refine ⟨hextends, ?_⟩
  show h ∈ (s.declare (.field f)).handles ∧ h.id = f.id
  cases hfind : s.handles.find? (·.id = f.id) with
  | some k =>
    obtain rfl : h = k := by simpa [hfind] using hreturns
    exact ⟨hextends.handles.subset (List.mem_of_find?_eq_some hfind),
      by simpa using List.find?_some hfind⟩
  | none =>
    obtain rfl : h = .ofField f := by simpa [hfind] using hreturns
    refine ⟨?_, rfl⟩
    show _ ∈ ((s.ask (.field f)).declareField f).handles
    have hnew : ¬ (s.ask (.field f)).handles.any (·.id = f.id) = true := by simpa using hfind
    rw [Progress.declareField, if_neg hnew]
    exact List.mem_cons_self

end BodyM

/-! ## Evaluated targets -/

/-- A target whose parts are evaluated: they are numbered locals of their sorts, the constant of a
mutable field, or the field of an element. -/
inductive Target.Evaluated (c : Context) (s : Progress) : Target → Prop
  | var {x : String} {t : Typ} : Evaluated c s (.var x t)
  | field {n : Nat} {f : Field} {h : FieldHandle}
      (hn : s.HasLocal (Naming.temp n) Prelude.refSort) (hf : c.field f.id = .ok f)
      (hmutable : f.isMutable = true) (hh : h ∈ s.handles) (hid : h.id = f.id) :
      Evaluated c s (.heap (.var (Naming.temp n)) (.var h.name) f.typ)
  | element {n m : Nat} {t : Typ} (hn : s.HasLocal (Naming.temp n) Prelude.refSort)
      (hm : s.HasLocal (Naming.temp m) .int) :
      Evaluated c s (.heap (.var (Naming.temp n)) (Prelude.indexField (.var (Naming.temp m))) t)
  | range {n m k : Nat} {t : Typ} (hn : s.HasLocal (Naming.temp n) Prelude.refSort)
      (hm : s.HasLocal (Naming.temp m) .int) (hk : s.HasLocal (Naming.temp k) .int) :
      Evaluated c s (.range (.var (Naming.temp n)) (.var (Naming.temp m)) (.var (Naming.temp k)) t)

theorem Target.Evaluated.extends {c : Context} {s s' : Progress} {t : Target}
    (h : t.Evaluated c s) (hs : s.Extends s') : t.Evaluated c s' := by
  cases h with
  | var => exact .var
  | field hn hf hmutable hh hid =>
    exact .field (hs.hasLocal hn) hf hmutable (hs.handles.subset hh) hid
  | element hn hm => exact .element (hs.hasLocal hn) (hs.hasLocal hm)
  | range hn hm hk => exact .range (hs.hasLocal hn) (hs.hasLocal hm) (hs.hasLocal hk)

section

variable {c : Context}

open BodyM.Leaves (andThen)
open BodyM.Lays (ofDecl ofExpr)
open BodyM (temp_leaves kept_temp)

/-- Evaluating a target leaves a target that is evaluated, and is the variable that was given, if
one was. -/
theorem ofLhs_leaves (v : View) (lhs : Lhs) :
    (Target.ofLhs v lhs).Leaves c fun s t => t.Evaluated c s ∧ t.var? = lhs.var? := by
  cases lhs with
  | var span x t => exact .pure fun s => ⟨.var, rfl⟩
  | field span obj fid =>
    have hfield : ∀ s : Progress, ∀ f, (ExprM.field fid).Returns (s.env c) f →
        c.field f.id = .ok f := by
      intro s f hf
      rw [ExprM.returns_field] at hf
      rwa [Context.id_of_field hf]
    refine (BodyM.Leaves.ofExpr hfield).bind (fun _ _ _ _ => id) fun f => ?_
    dsimp only
    split
    · exact .reject_bind
    rename_i hmutable
    refine andThen (Writing.value v obj) fun _ _ => ?_
    refine (temp_leaves _ _).bind (kept_temp _) fun o => ?_
    refine andThen (Writing.assertNonNull obj o) fun _ _ => ?_
    refine andThen (Writing.assert _ _) fun _ _ => ?_
    refine (BodyM.fieldHandle_leaves f).bind ?_ fun h => .pure fun s hh ho hf => ?_
    · rintro s s' h hs ⟨hh, hid⟩
      exact ⟨hs.handles.subset hh, hid⟩
    obtain ⟨n, rfl, hn⟩ := ho
    exact ⟨.field hn hf (by simpa using hmutable) hh.1 hh.2, rfl⟩
  | index span arr idx =>
    refine andThen (ofExpr _) fun elem _ => ?_
    refine andThen (Writing.define v arr) fun _ _ => ?_
    refine andThen (Writing.define v idx) fun _ _ => ?_
    refine andThen (ofExpr _) fun _ _ => ?_
    refine (temp_leaves _ _).bind (kept_temp _) fun a => ?_
    refine andThen (ofExpr _) fun _ _ => ?_
    refine (temp_leaves _ _).bind (kept_temp _) fun i => ?_
    refine andThen (Writing.assertNonNull arr a) fun _ _ => ?_
    refine andThen (ofExpr _) fun _ _ => ?_
    refine andThen (Writing.assert _ _) fun _ _ => ?_
    refine andThen (Writing.assert _ _) fun _ _ => .pure fun s hi ha => ?_
    obtain ⟨n, rfl, hn⟩ := ha
    obtain ⟨m, rfl, hm⟩ := hi
    exact ⟨.element hn hm, rfl⟩
  | range span arr lo hi =>
    refine andThen (ofExpr _) fun elem _ => ?_
    refine andThen (Writing.define v arr) fun _ _ => ?_
    refine andThen (Writing.define v lo) fun _ _ => ?_
    refine andThen (Writing.define v hi) fun _ _ => ?_
    refine andThen (ofExpr _) fun _ _ => ?_
    refine (temp_leaves _ _).bind (kept_temp _) fun a => ?_
    refine andThen (ofExpr _) fun _ _ => ?_
    refine (temp_leaves _ _).bind (kept_temp _) fun l => ?_
    refine andThen (ofExpr _) fun _ _ => ?_
    refine (temp_leaves _ _).bind (kept_temp _) fun h => ?_
    refine andThen (Writing.assertNonNull arr a) fun _ _ => ?_
    refine andThen (ofExpr _) fun _ _ => ?_
    refine andThen (Writing.assert _ _) fun _ _ => ?_
    refine andThen (Writing.assert _ _) fun _ _ => .pure fun s hh hl ha => ?_
    obtain ⟨n, rfl, hn⟩ := ha
    obtain ⟨m, rfl, hm⟩ := hl
    obtain ⟨k, rfl, hk⟩ := hh
    exact ⟨.range hn hm hk, rfl⟩

/-- A target with a value in a numbered local of the target's sort. -/
def Store.Evaluated (c : Context) (s : Progress) (st : Store) : Prop :=
  st.target.Evaluated c s ∧
    ∃ n, st.value = .var (Naming.temp n) ∧ s.HasLocal (Naming.temp n) st.target.typ.sort

/-- If there are several targets, a value is kept until all values are there. -/
theorem evalStore_leaves (v : View) (lhs : Lhs) (t : Target) (rhs : Rhs) :
    (evalStore v true ((lhs, t), rhs)).Leaves c fun s st => st.target = t ∧
      ∃ n, st.value = .var (Naming.temp n) ∧ s.HasLocal (Naming.temp n) t.typ.sort := by
  have own : WritesOwn fun _ => True := ⟨fun _ _ => trivial, trivial⟩
  refine andThen (Writing.evalRhs own v t.typ rhs) fun x _ => ?_
  refine (temp_leaves t.typ.sort x).bind (kept_temp _) fun y => .pure fun s hy => ?_
  exact ⟨rfl, hy⟩

end

/-! ## Names and sorts of stores -/

/-- The names that lowered code uses in a state have their sorts: the heap, the locals declared so
far and the constants of mutable fields. -/
structure Progress.SortedBy (s : Progress) (c : Context) (G : Sorts) : Prop where
  heap : G Prelude.heapName = some Prelude.heapSort
  locals : ∀ b ∈ s.decl.locals, G b.1 = some b.2
  fields : ∀ f, c.field f.id = .ok f → f.isMutable = true →
    G (Naming.field f.id) = some Prelude.fieldSort

section

variable {c : Context} {s : Progress} {st : Store} {vars : List String}

theorem Progress.SortedBy.of_extends {s' : Progress} {G : Sorts} (h : s'.SortedBy c G)
    (hs : s.Extends s') : s.SortedBy c G :=
  ⟨h.heap, fun b hb => h.locals b (hs.locals.subset hb), h.fields⟩

/-- The constant of a field is called as the program says. -/
theorem Context.Declared.name_eq (h : c.Declared s.handles) {k : FieldHandle} (hk : k ∈ s.handles)
    {f : Field} (hid : k.id = f.id) : k.name = Naming.field f.id := by
  obtain ⟨g, -, rfl⟩ := h k hk
  exact congrArg Naming.field hid

/-- Evaluated targets mention numbered locals and constants of fields. -/
theorem Target.Evaluated.names {t : Target} (h : t.Evaluated c s) (hdeclared : c.Declared s.handles) :
    ∀ e ∈ t.parts, ∀ x ∈ e.free, (∃ n, x = Naming.temp n) ∨
      ∃ f, c.field f.id = .ok f ∧ f.isMutable = true ∧ x = Naming.field f.id := by
  intro e he x hx
  cases h with
  | var => cases he
  | @field m f k hm hf hmutable hk hid =>
    simp only [Target.parts, List.mem_cons, List.not_mem_nil, or_false] at he
    rcases he with rfl | rfl
    · exact .inl ⟨m, List.mem_singleton.1 hx⟩
    · exact .inr ⟨f, hf, hmutable, (List.mem_singleton.1 hx).trans (hdeclared.name_eq hk hid)⟩
  | @element m k t hm hk =>
    simp only [Target.parts, List.mem_cons, List.not_mem_nil, or_false] at he
    rcases he with rfl | rfl
    · exact .inl ⟨m, List.mem_singleton.1 hx⟩
    · exact .inl ⟨k, by simpa [Prelude.indexField, Expr.free, Expr.freeList] using hx⟩
  | @range m k l t hm hk hl =>
    simp only [Target.parts, List.mem_cons, List.not_mem_nil, or_false] at he
    rcases he with rfl | rfl | rfl
    · exact .inl ⟨m, List.mem_singleton.1 hx⟩
    · exact .inl ⟨k, List.mem_singleton.1 hx⟩
    · exact .inl ⟨l, List.mem_singleton.1 hx⟩

/-- A numbered local whose name does not begin like that of a local for a heap. -/
theorem untouched_numbered {x : String} (hpercent : '%' ∈ x.toList)
    (hscratch : ∀ n, x ≠ Naming.prevHeap n) (hvars : ∀ x ∈ vars, Naming.Plain x) :
    Untouched vars x := by
  have ne {y : String} (hy : '%' ∉ y.toList) : x ≠ y := by
    rintro rfl
    exact hy hpercent
  exact ⟨ne (by decide), hscratch, ne (by decide), ne (by decide),
    fun hmem => (hvars _ hmem '%' hpercent).2.1 rfl⟩

theorem untouched_temp (hvars : ∀ x ∈ vars, Naming.Plain x) (n : Nat) :
    Untouched vars (Naming.temp n) := by
  refine untouched_numbered (by simp [Naming.temp]) (fun m heq => ?_) hvars
  simpa [Naming.temp, Naming.prevHeap] using congrArg (·.toList.head?) heq

theorem untouched_field {f : FieldId} (hvars : Naming.field f ∉ vars) :
    Untouched vars (Naming.field f) := by
  have hdot : '.' ∈ (Naming.field f).toList := by simp [Naming.field]
  have ne {x : String} (hx : '.' ∉ x.toList) : Naming.field f ≠ x := by
    rintro rfl
    exact hx hdot
  refine ⟨ne (by decide), fun m => ne ?_, ne (by decide), ne (by decide), hvars⟩
  have hdigits : '.' ∉ Nat.toDigits 10 m := fun hm =>
    absurd (Nat.isDigit_of_mem_toDigits (by decide) (by decide) hm) (by decide)
  simpa [Naming.prevHeap] using hdigits

theorem writable_of_plain {x : String} (hx : Naming.Plain x) : Writable x := by
  constructor
  · rintro rfl
    exact (hx '$' (by decide)).1 rfl
  · rintro n rfl
    exact (hx '$' (by simp [Naming.prevHeap])).1 rfl

/-- The sort of a type is not the one of fields. -/
theorem Typ.sort_ne_fieldSort (t : Typ) : t.sort ≠ Prelude.fieldSort := by
  cases t <;> simp [Source.Typ.sort, Prelude.fieldSort, Prelude.refSort, Prelude.datatypeSort,
    Prelude.boxSort, Prelude.setSort, Prelude.multisetSort, Prelude.seqSort, Prelude.mapSort]

variable {M : Model} {old ρ : M.Valuation} {G : Sorts}

/-- The box of a variable of a type is a box. -/
theorem carrier_box_var (hM : M.Heaps) {t : Typ} {x : String} (hx : M.carrier t.sort (ρ x)) :
    M.carrier Prelude.boxSort ((Boxing.box t (.var x)).eval old ρ) := by
  unfold Boxing.box
  cases hsort : t.boxSort? with
  | none =>
    have hboxed : t.isBoxed = true := by simp [Source.Typ.isBoxed, hsort]
    exact Boxing.sort_of_isBoxed hboxed ▸ hx
  | some b =>
    rw [Boxing.sort_of_boxSort? hsort] at hx
    simpa [Boxing.applied?] using hM.box_sort b hx

/-- Where an evaluated target is one location, it is one of an object and a field. -/
theorem Target.Evaluated.sorted {t : Target} (h : t.Evaluated c s) (hM : M.Heaps)
    (hG : s.SortedBy c G) (hclash : s.decl.clash = none) (hdeclared : c.Declared s.handles)
    (hρ : Model.Respects G ρ) {o f : IL.Expr} {typ : Typ} (ht : t = .heap o f typ) :
    M.carrier Prelude.refSort (o.eval old ρ) ∧ M.carrier Prelude.fieldSort (f.eval old ρ) := by
  have hlocal {x : String} {srt : Srt} (hx : s.HasLocal x srt) : M.carrier srt (ρ x) :=
    hρ x srt (hG.locals _ (hx hclash))
  subst ht
  cases h with
  | field hm hf hmutable hk hid =>
    refine ⟨hlocal hm, ?_⟩
    rw [Expr.eval_var, hdeclared.name_eq hk hid]
    exact hρ _ _ (hG.fields _ hf hmutable)
  | element hm hk =>
    exact ⟨hlocal hm, by simpa [Prelude.indexField] using hM.index_sort (hlocal hk)⟩

/-- A variable that may be assigned: it has a name of the source and the sort of a type. -/
def Assignable (G : Sorts) (x : String) : Prop := Naming.Plain x ∧ ∃ t : Typ, G x = some t.sort

/-- Stores in evaluated targets are independent if they are compatible, and their values are boxes
and mention nothing that is written. -/
theorem independent_of_evaluated (hM : M.Heaps) (hG : s.SortedBy c G)
    (hclash : s.decl.clash = none) (hdeclared : c.Declared s.handles) (hρ : Model.Respects G ρ)
    (hvars : ∀ x ∈ vars, Assignable G x) {l : List Store}
    (htargets : ∀ st ∈ l, st.target.Evaluated c s ∧ ∀ x, st.target.var? = some x → x ∈ vars)
    (hvalues : ∀ st ∈ l, (∀ x ∈ st.value.free, Untouched vars x) ∧
      M.carrier Prelude.boxSort (st.boxed.eval old ρ))
    (hcompatible : l.Pairwise (Store.Compatible old ρ)) : Independent vars old ρ l := by
  constructor
  case names =>
    intro st hst x hx
    obtain ⟨e, he, hx⟩ := Expr.mem_freeList.1 hx
    rcases List.mem_cons.1 he with rfl | he
    · exact (hvalues st hst).1 x hx
    rcases (htargets st hst).1.names hdeclared e he x hx with ⟨n, rfl⟩ | ⟨f, hf, hmutable, rfl⟩
    · exact untouched_temp (fun x hx => (hvars x hx).1) n
    · refine untouched_field fun hmem => ?_
      obtain ⟨-, t, ht⟩ := hvars _ hmem
      rw [hG.fields f hf hmutable, Option.some.injEq] at ht
      exact Typ.sort_ne_fieldSort t ht.symm
  case vars => exact fun st hst => (htargets st hst).2
  case sorted =>
    intro st hst o f t ht
    obtain ⟨ho, hf⟩ := (htargets st hst).1.sorted hM hG hclash hdeclared hρ ht
    exact ⟨ho, hf, (hvalues st hst).2⟩
  case compatible => exact hcompatible

end

/-! ## Targets that overlap -/

theorem forall_mem_orderedPairs {α : Type} {R : α → α → Prop} {l : List α} :
    (∀ p ∈ orderedPairs l, R p.1 p.2) ↔ l.Pairwise R := by
  induction l with
  | nil => simp [orderedPairs]
  | cons a l ih =>
    rw [orderedPairs, List.forall_mem_append, List.forall_mem_map, ih, List.pairwise_cons]

section

variable {M : Model} {old ρ : M.Valuation}

/-- If two targets select one location, the condition that they overlap is stated and holds. -/
theorem Target.overlap_of_selects {s t : Target} {o f : M.Val} (hs : s.Selects old ρ o f)
    (ht : t.Selects old ρ o f) : ∃ e, s.overlap? t = some e ∧ Holds old ρ e := by
  cases s with
  | var => exact hs.elim
  | heap obj field typ =>
    cases t with
    | var => exact ht.elim
    | heap obj' field' typ' =>
      refine ⟨_, rfl, ?_⟩
      simp only [holds_conj, List.forall_mem_cons, holds_eq]
      exact ⟨hs.1.symm.trans ht.1, hs.2.symm.trans ht.2, by simp⟩
    | range a lo hi typ' =>
      obtain ⟨rfl, rfl⟩ := hs
      exact ⟨_, rfl, (holds_rangeSelects typ').2 ht⟩
  | range a lo hi typ =>
    cases t with
    | var => exact ht.elim
    | heap obj' field' typ' =>
      obtain ⟨rfl, rfl⟩ := ht
      exact ⟨_, rfl, (holds_rangeSelects typ).2 hs⟩
    | range a' lo' hi' typ' =>
      obtain ⟨ho, -, hlo, hhi⟩ := hs
      obtain ⟨ho', -, hlo', hhi'⟩ := ht
      refine ⟨_, rfl, ?_⟩
      simp only [holds_conj, List.forall_mem_cons, holds_eq, holds_lt]
      exact ⟨ho.symm.trans ho', by omega, by omega, by simp⟩

end

/-! ## The code of an assignment -/

/-- The code of an assignment: it evaluates the targets, computes the values, compares the targets
and stores the values. -/
structure AssignCode (c : Context) (v : View) (s : Progress) (lhss : List Lhs) (rhss : List Rhs)
    (ss : List IL.Stmt) (s' : Progress) where
  targets : List Target
  stores : List Store
  /-- The states in which the values are computed, compared and stored. -/
  (s₁ s₂ s₃ : Progress)
  (parts values checks code : List IL.Stmt)
  evaluates : (lhss.mapM (Target.ofLhs v)).Emits c s targets parts s₁
  computes : (((lhss.zip targets).zip rhss).mapM (evalStore v (targets.length > 1))).Emits c s₁
    stores values s₂
  compares : ((orderedPairs stores).forM fun p => assertDistinct p.1 p.2).Emits c s₂ () checks s₃
  writes : (stores.forM fun s => s.target.store s.value).Emits c s₃ () code s'
  code_eq : ss = parts ++ values ++ checks ++ code

/-- No two targets are the same variable. -/
def Target.Apart (s t : Target) : Prop := ∀ x, s.var? = some x → t.var? ≠ some x

theorem Target.apart_of_not_isSameVar {s t : Target} (h : ¬ s.isSameVar t = true) : s.Apart t := by
  intro x hs ht
  cases s <;> cases hs
  cases t <;> cases ht
  simp [isSameVar] at h

theorem sublist_map_fst_zip {α β : Type} (l : List α) (r : List β) :
    ((l.zip r).map Prod.fst).Sublist l := by
  induction l generalizing r with
  | nil => simp
  | cons a l ih =>
    cases r with
    | nil => simp
    | cons b r => exact (ih r).cons_cons a

section

variable {c : Context} {v : View} {span : Span} {s s' : Progress} {lhss : List Lhs}
  {rhss : List Rhs} {ss : List IL.Stmt}

/-- An assignment that is lowered has such code, and no variable occurs twice among its targets. -/
theorem exists_assignCode (h : (lowerAssign v span lhss rhss).Emits c s () ss s') :
    ∃ r : AssignCode c v s lhss rhss ss s', r.targets.Pairwise Target.Apart := by
  rw [lowerAssign_eq] at h
  simp only [BodyM.emits_bind] at h
  obtain ⟨targets, s₁, parts, _, hparts, ⟨_, s₁', _, _, hreject, ⟨stores, s₂, values, _, hvalues,
    ⟨_, s₃, checks, code, hchecks, hcode, rfl⟩, rfl⟩, rfl⟩, rfl⟩ := h
  unfold rejectRepeated at hreject
  split at hreject
  · exact (DeclM.gives_reject (BodyM.emits_ofDecl.1 hreject).1).elim
  rename_i hrepeated
  obtain ⟨-, rfl, rfl⟩ := BodyM.emits_pure.1 hreject
  refine ⟨⟨targets, stores, s₁', s₂, s₃, parts, values, checks, code, hparts, hvalues, hchecks,
    hcode, by simp⟩, forall_mem_orderedPairs.1 fun p hp => ?_⟩
  refine Target.apart_of_not_isSameVar fun hsame => hrepeated ?_
  exact List.any_eq_true.2 ⟨p, hp, hsame⟩

/-- The comparison of targets asserts for two that may overlap that they hold the same then. -/
theorem asserted_of_compares {pairs : List (Store × Store)}
    (h : (pairs.forM fun p => assertDistinct p.1 p.2).Emits c s () ss s') :
    s' = s ∧ (∀ t ∈ ss, ∃ m e, t = .assert m e) ∧ ∀ p ∈ pairs, ∀ overlap,
      p.1.target.overlap? p.2.target = some overlap →
        .disj [overlap.neg, .eq p.1.boxed p.2.boxed] ∈ Stmt.asserted ss := by
  induction pairs generalizing ss s with
  | nil =>
    obtain ⟨-, rfl, rfl⟩ := BodyM.emits_pure.1 h
    simp
  | cons p pairs ih =>
    obtain ⟨_, s₁, ss₁, ss₂, hp, hpairs, rfl⟩ := BodyM.emits_bind.1 h
    obtain ⟨rfl, hasserts, hmem⟩ := ih hpairs
    dsimp only at hp
    unfold assertDistinct at hp
    split at hp
    · rename_i hnone
      obtain ⟨-, rfl, rfl⟩ := BodyM.emits_pure.1 hp
      refine ⟨rfl, hasserts, List.forall_mem_cons.2 ⟨fun o ho => ?_, hmem⟩⟩
      rw [hnone] at ho
      cases ho
    · rename_i o hsome
      obtain ⟨rfl, rfl⟩ := BodyM.emits_add.1 hp
      refine ⟨rfl, List.forall_mem_cons.2 ⟨⟨_, _, rfl⟩, hasserts⟩,
        List.forall_mem_cons.2 ⟨fun o' ho' => ?_, fun q hq o' ho' => ?_⟩⟩
      · obtain rfl := Option.some.inj (hsome.symm.trans ho')
        exact List.mem_cons_self
      · exact List.mem_cons_of_mem _ (hmem q hq o' ho')

theorem extends_of_stores {l : List Store}
    (h : (l.forM fun st => st.target.store st.value).Emits c s () ss s') : s.Extends s' := by
  have own : WritesOwn fun _ => True := ⟨fun _ _ => trivial, trivial⟩
  refine ((BodyM.Lays.forM fun st _ => Writing.store own ?_ st.value :
    (l.forM fun st => st.target.store st.value).Lays c (.writing fun _ => True) _) trivial h).1
  cases st.target <;> trivial

namespace AssignCode

variable (r : AssignCode c v s lhss rhss ss s')

/-- Every left-hand side has a target, which is evaluated. -/
theorem targets_evaluated : s.Extends r.s₁ ∧
    List.Forall₂ (fun lhs t => t.Evaluated c r.s₁ ∧ t.var? = lhs.var?) lhss r.targets := by
  refine BodyM.Leaves.mapM (fun lhs _ => ofLhs_leaves v lhs) (fun lhs s s' t hs ht => ?_) r.evaluates
  exact ⟨ht.1.extends hs, ht.2⟩

/-- If there are several targets, every value is kept in a local. -/
theorem values_evaluated (hseveral : 1 < lhss.length) : r.s₁.Extends r.s₂ ∧
    List.Forall₂ (fun p st => st.target = p.1.2 ∧ ∃ n, st.value = .var (Naming.temp n) ∧
      r.s₂.HasLocal (Naming.temp n) p.1.2.typ.sort) ((lhss.zip r.targets).zip rhss) r.stores := by
  have hcomputes := r.computes
  rw [← r.targets_evaluated.2.length_eq, decide_eq_true hseveral] at hcomputes
  refine BodyM.Leaves.mapM (fun p _ => evalStore_leaves v p.1.1 p.1.2 p.2)
    (fun p s s' st hs hst => ?_) hcomputes
  obtain ⟨htarget, n, hvalue, hn⟩ := hst
  exact ⟨htarget, n, hvalue, hs.hasLocal hn⟩

/-- If there are several targets, they and their values are evaluated before the stores. -/
theorem stores_evaluated (hseveral : 1 < lhss.length) : ∀ st ∈ r.stores,
    st.Evaluated c r.s₃ ∧ ∃ lhs ∈ lhss, st.target.var? = lhs.var? := by
  intro st hst
  obtain ⟨-, htargets⟩ := r.targets_evaluated
  obtain ⟨hs, hstores⟩ := r.values_evaluated hseveral
  rw [(asserted_of_compares r.compares).1]
  obtain ⟨p, hp, htarget, n, hvalue, hn⟩ := exists_of_forall₂ hstores hst
  rw [← htarget] at hn
  have hmem : (p.1.1, p.1.2) ∈ lhss.zip r.targets := (List.of_mem_zip hp).1
  obtain ⟨hevaluated, hvar⟩ := (List.forall₂_iff_zip.1 htargets).2 hmem
  refine ⟨⟨htarget ▸ hevaluated.extends hs, n, hvalue, hn⟩, p.1.1, (List.of_mem_zip hmem).1, ?_⟩
  rw [htarget, hvar]

/-- The targets that are stored are among those that were evaluated. -/
theorem stores_sublist (hseveral : 1 < lhss.length) :
    (r.stores.map (·.target)).Sublist r.targets := by
  have hpairs : r.stores.map (·.target) = ((lhss.zip r.targets).zip rhss).map (·.1.2) := by
    refine (congrFun (congrFun List.forall₂_eq_eq_eq _) _).mp ?_
    rw [List.forall₂_map_left_iff, List.forall₂_map_right_iff]
    exact ((r.values_evaluated hseveral).2.imp fun p st h => h.1).flip
  have hsnd := List.map_snd_zip r.targets_evaluated.2.length_eq.ge
  have hsub := (sublist_map_fst_zip (lhss.zip r.targets) rhss).map Prod.snd
  rw [List.map_map, hsnd] at hsub
  exact hpairs ▸ hsub

variable {M : Model} {old ρ : M.Valuation} {G : Sorts}

/-- Where the comparisons hold the stores are compatible. -/
theorem compatible (hseveral : 1 < lhss.length) (hapart : r.targets.Pairwise Target.Apart)
    (hholds : ∀ e ∈ Stmt.asserted r.checks, Holds old ρ e) :
    r.stores.Pairwise (Store.Compatible old ρ) := by
  obtain ⟨-, -, hdistinct⟩ := asserted_of_compares r.compares
  have hstores : r.stores.Pairwise fun a b => a.target.Apart b.target :=
    List.pairwise_map.1 (hapart.sublist (r.stores_sublist hseveral))
  have hagree : r.stores.Pairwise fun a b => ∀ {o f}, a.target.Selects old ρ o f →
      b.target.Selects old ρ o f → a.boxed.eval old ρ = b.boxed.eval old ρ := by
    refine forall_mem_orderedPairs.1 fun p hp o f ha hb => ?_
    obtain ⟨overlap, hsome, hoverlap⟩ := Target.overlap_of_selects ha hb
    have hassert := hholds _ (hdistinct p hp overlap hsome)
    simp only [holds_disj, List.mem_cons, List.not_mem_nil, or_false, exists_eq_or_imp,
      exists_eq_left, holds_neg, holds_eq] at hassert
    exact hassert.resolve_left fun hnot => hnot hoverlap
  exact hstores.imp₂ (fun a b hvar hheap => ⟨hvar, fun _ _ hs ht => hheap hs ht⟩) hagree

/-- Where the comparisons hold the stores are independent. -/
theorem independent (hseveral : 1 < lhss.length) (hapart : r.targets.Pairwise Target.Apart)
    (hclash : s'.decl.clash = none) (hdeclared : c.Declared s'.handles) (hG : s'.SortedBy c G)
    (hvars : ∀ x ∈ lhss.filterMap Lhs.var?, Assignable G x) (hM : M.Heaps)
    (hρ : Model.Respects G ρ) (hholds : ∀ e ∈ Stmt.asserted r.checks, Holds old ρ e) :
    Independent (lhss.filterMap Lhs.var?) old ρ r.stores := by
  have hlast := extends_of_stores r.writes
  refine independent_of_evaluated hM (hG.of_extends hlast) (hlast.clash hclash)
    (fun h hh => hdeclared h (hlast.handles.subset hh)) hρ hvars (fun st hst => ?_)
    (fun st hst => ?_) (r.compatible hseveral hapart hholds)
  · obtain ⟨hst, lhs, hlhs, hvar⟩ := r.stores_evaluated hseveral st hst
    exact ⟨hst.1, fun x hx => List.mem_filterMap.2 ⟨lhs, hlhs, hvar ▸ hx⟩⟩
  · obtain ⟨⟨-, n, hvalue, hn⟩, -⟩ := r.stores_evaluated hseveral st hst
    rw [Store.boxed, hvalue]
    have hlocal := hlast.locals.subset (hn (hlast.clash hclash))
    refine ⟨fun x hx => ?_, carrier_box_var hM (hρ _ _ (hG.locals _ hlocal))⟩
    obtain rfl := List.mem_singleton.1 hx
    exact untouched_temp (fun x hx => (hvars x hx).1) n

end AssignCode

end

/-! ## Parallel assignment -/

/-- In every state in which an assignment's own checks hold, its stores may be made in any order.
States are sorted, and so are the heaps in between. -/
def AssignCode.Simultaneous {c : Context} {v : View} {s s' : Progress} {lhss : List Lhs}
    {rhss : List Rhs} {ss : List IL.Stmt} (r : AssignCode c v s lhss rhss ss s') (M : Model)
    (G : Sorts) : Prop :=
  ∀ {procs : List Procedure} {old ρ₀ ρ : M.Valuation} {tr : Trace M},
    Exec procs old (r.parts ++ r.values ++ r.checks) ρ₀ tr (.done ρ) → tr.Proper → tr.Safe →
    Model.Respects G ρ₀ → tr.Passes (Model.Respects G) → InAnyOrder procs old ρ r.stores

/-- An assignment to several targets stores all values that were computed before, in whatever order
the stores are made. -/
theorem parallel_assignment {c : Context} {v : View} {span : Span} {lhss : List Lhs}
    {rhss : List Rhs} {s s' : Progress} {ss : List IL.Stmt}
    (h : (lowerAssign v span lhss rhss).Emits c s () ss s') (hseveral : 1 < lhss.length)
    (hclash : s'.decl.clash = none) (hdeclared : c.Declared s'.handles) {G : Sorts}
    (hG : s'.SortedBy c G)
    (hvars : ∀ x ∈ lhss.filterMap Lhs.var?, Assignable G x) {M : Model}
    {entry global : M.Valuation} (hM : Model.SatisfiesPrelude entry global) :
    ∃ r : AssignCode c v s lhss rhss ss s', r.Simultaneous M G := by
  obtain ⟨r, hapart⟩ := exists_assignCode h
  refine ⟨r, ?_⟩
  intro procs old ρ₀ ρ tr hexec hproper hsafe hρ₀ htyped
  have hheap := Prelude.heaps_of_prelude hM
  have hρ : Model.Respects G ρ := hexec.passes hρ₀ htyped
  -- the checks at the end hold in the state in which the stores begin
  obtain ⟨ρ', tr₁, tr₂, -, hchecks, rfl⟩ := hexec.split
  obtain ⟨-, hasserts, -⟩ := asserted_of_compares r.compares
  obtain ⟨rfl, hholds⟩ := hchecks.of_asserts hasserts (Trace.safe_append.1 hsafe).2
  have hindependent := r.independent hseveral hapart hclash hdeclared hG hvars hheap hρ hholds
  exact hindependent.inAnyOrder hheap (fun x hx => writable_of_plain (hvars x hx).1)
    (hρ _ _ hG.heap)

namespace Swap

/-- The receiver. -/
def this : Source.Expr := .mkThis default (.cls ⟨"M", ["C"]⟩ [])

def field : Source.Field := ⟨⟨⟨"M", ["C"]⟩, "f"⟩, default, .int, true⟩

def context : Context := { fields := [field] }

def view : View := { heap := Prelude.heapVar, oldHeap := .old Prelude.heapName }

/-- A variable and a field of the receiver. -/
def targets : List Lhs := [.var default "x" .int, .field default this field.id]

/-- The value of the other target. -/
def values : List Rhs :=
  [.expr (.field ⟨default, .int⟩ this field.id), .expr (.mkVar default "x" .int)]

/-- The sorts of the names in the code that exchanges the values of a variable and a field. -/
def sorts : Sorts := fun x =>
  [(Prelude.heapName, Prelude.heapSort), ("x", .int), ("M.C.f", Prelude.fieldSort),
    ("tmp%1", Prelude.refSort), ("tmp%2", .int), ("tmp%3", .int)].lookup x

/-- What the assignment is lowered to. -/
def lowered : Except Fault (Unit × List IL.Stmt) × Progress :=
  (lowerAssign view default targets values).run context {}

theorem lowered_eq : lowered.1.toOption.isSome = true ∧ lowered.2.decl.clash = none ∧
    lowered.2.decl.locals = [("tmp%1", Prelude.refSort), ("tmp%2", .int), ("tmp%3", .int)] ∧
    lowered.2.handles = [.ofField field] :=
  have h : (lowered.1.toOption.isSome, lowered.2.decl.clash.isNone, lowered.2.decl.locals,
      lowered.2.handles) = (true, true, [("tmp%1", Prelude.refSort), ("tmp%2", .int),
        ("tmp%3", .int)], [.ofField field]) := by cbv
  ⟨congrArg (·.1) h, Option.isNone_iff_eq_none.1 (congrArg (·.2.1) h), congrArg (·.2.2.1) h,
    congrArg (·.2.2.2) h⟩

theorem lowers : ∃ ss, (lowerAssign view default targets values).Emits context {} () ss lowered.2 := by
  cases hout : lowered.1 with
  | error e => simpa [hout, Except.toOption] using lowered_eq.1
  | ok p => exact ⟨p.2, Prod.ext hout rfl⟩

theorem field_eq {f : Source.Field} (h : context.field f.id = .ok f) : f = field := by
  simp only [Context.field, Context.orBroken, context, List.find?_cons] at h
  split at h
  · rename_i g hg
    split at hg
    · exact (Except.ok.inj h).symm.trans (Option.some.inj hg).symm
    · cases hg
  · cases h

/-- The values of a variable and a field are exchanged. -/
theorem parallel_assignment_swap : ∃ ss,
    (lowerAssign view default targets values).Emits context {} () ss lowered.2 ∧
    1 < targets.length ∧ lowered.2.decl.clash = none ∧
    context.Declared lowered.2.handles ∧ lowered.2.SortedBy context sorts ∧
    (∀ x ∈ targets.filterMap Lhs.var?, Assignable sorts x) ∧
    ∃ r : AssignCode context view {} targets values ss lowered.2,
      r.Simultaneous (Standard.model Interval.nothing) sorts := by
  obtain ⟨-, hclash, hlocals, hhandles⟩ := lowered_eq
  obtain ⟨ss, hlowers⟩ := lowers
  have hdeclared : context.Declared lowered.2.handles := by
    intro h hh
    rw [hhandles] at hh
    exact ⟨field, rfl, List.mem_singleton.1 hh⟩
  have hsorted : lowered.2.SortedBy context sorts := by
    refine ⟨rfl, fun b hb => ?_, fun f hf _ => ?_⟩
    · rw [hlocals] at hb
      fin_cases hb <;> rfl
    · rw [field_eq hf]
      rfl
  have hvars : ∀ x ∈ targets.filterMap Lhs.var?, Assignable sorts x := by
    intro x hx
    obtain rfl : x = "x" := List.mem_singleton.1 hx
    exact ⟨by simp [Naming.Plain], .int, rfl⟩
  exact ⟨ss, hlowers, by decide, hclash, hdeclared, hsorted, hvars,
    parallel_assignment hlowers (by decide) hclash hdeclared hsorted hvars
      (Interval.preludeState 0 0 0).toSatisfiesPrelude⟩

end Swap

end ContractLowering
