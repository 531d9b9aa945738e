import ContractLowering.Context

/-!
# The context of a program

A context is built by adding declarations one after the other, and what every addition keeps, the
context has (`foldlM_keeps`). So its options are the given ones, its classes are those of the
program (`mem_classes_ofProgram`) under distinct paths (`distinct_ofProgram`), and the class of
every iterator is among them (`cls_of_iterator`).
-/

namespace ContractLowering

open Source

namespace Context

/-- What every step keeps, a sequence of steps keeps. -/
theorem foldlM_keeps {α : Type} {add : Context → α → Except Message Context} {p : Context → Prop}
    {as : List α} (hadd : ∀ a ∈ as, ∀ c c', add c a = .ok c' → p c → p c') {c c' : Context}
    (h : as.foldlM add c = .ok c') (hc : p c) : p c' := by
  induction as generalizing c with
  | nil =>
    cases h
    exact hc
  | cons a as ih =>
    rw [List.foldlM_cons] at h
    cases ha : add c a with
    | error m =>
      rw [ha] at h
      cases h
    | ok d =>
      rw [ha] at h
      exact ih (fun b hb => hadd b (by simp [hb])) h (hadd a (by simp) c d ha hc)

/-- A declaration that is added unless it repeats another one. -/
theorem eq_of_add {b : Bool} {m : Message} {c c' : Context}
    (h : (if b then .error m else .ok c : Except Message Context) = .ok c') : c' = c := by
  cases b with
  | true => cases h
  | false => exact (Except.ok.inj h).symm

theorem not_of_add {b : Bool} {m : Message} {c c' : Context}
    (h : (if b then .error m else .ok c : Except Message Context) = .ok c') : b = false := by
  cases b with
  | true => cases h
  | false => rfl

theorem exists_of_bind {x : Except Message Context} {f : Context → Except Message Context}
    {c : Context} (h : x >>= f = .ok c) : ∃ d, x = .ok d ∧ f d = .ok c := by
  cases x with
  | error m => cases h
  | ok d => exact ⟨d, rfl, h⟩

/-- Datatypes, iterators and classes that are kept apart change neither classes nor options. -/
theorem of_addOther {c c' : Context} {d : TopDecl} (h : c.addOther d = .ok c') :
    c'.classes = c.classes ∧ c'.options = c.options := by
  cases d with
  | cls k =>
    cases h
    exact ⟨rfl, rfl⟩
  | datatype d | iterator i =>
    rw [eq_of_add h]
    exact ⟨rfl, rfl⟩

/-- What adding a class does, apart from its members: it brings itself in, under a new path. -/
structure AddsClass (c c' : Context) (k : Source.Class) : Prop where
  classes : c'.classes = k :: c.classes
  options : c'.options = c.options
  iterators : c'.iterators = c.iterators
  isNew : k.path ∉ c.classes.map (·.path)

theorem of_addClass {c c' : Context} {k : Source.Class} (h : c.addClass k = .ok c') :
    c.AddsClass c' k := by
  obtain ⟨c₁, hfunctions, h⟩ := exists_of_bind h
  obtain ⟨c₂, hmethods, h⟩ := exists_of_bind h
  let kept (d : Context) : Prop :=
    d.classes = c.classes ∧ d.options = c.options ∧ d.iterators = c.iterators
  have functions : kept c₁ :=
    foldlM_keeps (fun f _ d d' hd hc => by rw [eq_of_add hd]; exact hc) hfunctions ⟨rfl, rfl, rfl⟩
  obtain ⟨hclasses, hoptions, hiterators⟩ : kept c₂ :=
    foldlM_keeps (fun m _ d d' hd hc => by rw [eq_of_add hd]; exact hc) hmethods functions
  have hnew := not_of_add h
  rw [eq_of_add h]
  refine ⟨congrArg (k :: ·) hclasses, hoptions, hiterators, fun hmem => ?_⟩
  obtain ⟨k', hk', hpath⟩ := List.mem_map.1 hmem
  exact List.any_eq_false.1 hnew k' (hclasses ▸ hk') (decide_eq_true hpath)

/-- The classes of a context are those of the declarations it was made of. -/
theorem mem_classes_ofProgram {program : Source.Program} {options : Options} {c : Context}
    (h : ofProgram program options = .ok c) {k : Source.Class} (hk : k ∈ c.classes) :
    ∃ d ∈ program.flatMap (·.decls), classOf? d = some k := by
  obtain ⟨c₁, hother, h⟩ := exists_of_bind h
  obtain ⟨c₂, hclass, h⟩ := exists_of_bind h
  cases h
  have start : c₁.classes = [] :=
    foldlM_keeps (p := fun c => c.classes = [])
      (fun d _ c c' hc hp => (of_addOther hc).1.trans hp) hother rfl
  have classes : ∀ k ∈ c₂.classes, k ∈ (program.flatMap (·.decls)).filterMap classOf? := by
    refine foldlM_keeps (p := fun c => ∀ k ∈ c.classes, k ∈ _) (fun k hk c c' hc hp => ?_) hclass
      (by simp [start])
    rw [(of_addClass hc).classes]
    exact List.forall_mem_cons.mpr ⟨hk, hp⟩
  exact List.mem_filterMap.mp (classes k hk)

theorem options_ofProgram {program : Source.Program} {options : Options} {c : Context}
    (h : ofProgram program options = .ok c) : c.options = options := by
  obtain ⟨c₁, hother, h⟩ := exists_of_bind h
  obtain ⟨c₂, hclass, h⟩ := exists_of_bind h
  cases h
  have other : c₁.options = options :=
    foldlM_keeps (fun d _ c c' hc hp => (of_addOther hc).2.trans hp) hother rfl
  have classes : c₂.options = options :=
    foldlM_keeps (fun k _ c c' hc hp => (of_addClass hc).options.trans hp) hclass other
  exact classes

/-- What one step brings about and every later step keeps, a sequence of steps brings about. -/
theorem foldlM_brings {α : Type} {add : Context → α → Except Message Context} {p : Context → Prop}
    {as : List α} (hkeep : ∀ a ∈ as, ∀ c c', add c a = .ok c' → p c → p c') {a : α} (ha : a ∈ as)
    (hadd : ∀ c c', add c a = .ok c' → p c') {c c' : Context} (h : as.foldlM add c = .ok c') :
    p c' := by
  obtain ⟨before, after, rfl⟩ := List.append_of_mem ha
  rw [List.foldlM_append] at h
  obtain ⟨c₁, -, h⟩ := exists_of_bind h
  rw [List.foldlM_cons] at h
  obtain ⟨c₂, hc₂, h⟩ := exists_of_bind h
  exact foldlM_keeps (fun b hb => hkeep b (by simp [hb])) h (hadd c₁ c₂ hc₂)

/-- What is listed under distinct keys is found under its key. -/
theorem find?_of_nodup {α β : Type} [DecidableEq β] {f : α → β} {as : List α}
    (h : (as.map f).Nodup) {a : α} (ha : a ∈ as) : as.find? (fun b => f b = f a) = some a := by
  induction as with
  | nil => cases ha
  | cons b as ih =>
    obtain ⟨hb, has⟩ := List.nodup_cons.1 h
    rcases List.mem_cons.1 ha with rfl | ha
    · simp
    · have hne : f b ≠ f a := fun e => hb (e ▸ List.mem_map.2 ⟨a, ha, rfl⟩)
      simp [hne, ih has ha]

theorem distinct_ofProgram {program : Source.Program} {options : Options} {c : Context}
    (h : ofProgram program options = .ok c) : (c.classes.map (·.path)).Nodup := by
  obtain ⟨c₁, hother, h⟩ := exists_of_bind h
  obtain ⟨c₂, hclass, h⟩ := exists_of_bind h
  cases h
  have start : c₁.classes = [] :=
    foldlM_keeps (p := fun c => c.classes = [])
      (fun d _ c c' hc hp => (of_addOther hc).1.trans hp) hother rfl
  exact foldlM_keeps (p := fun c => (c.classes.map (·.path)).Nodup)
    (fun k _ c c' hc hp => by
      rw [(of_addClass hc).classes]
      exact List.nodup_cons.2 ⟨(of_addClass hc).isNew, hp⟩) hclass (by simp [start])

theorem iterators_addOther {c c' : Context} {d : TopDecl} (h : c.addOther d = .ok c') {i : Iterator}
    (hi : i ∈ c'.iterators) : i ∈ c.iterators ∨ d = .iterator i := by
  cases d with
  | cls k =>
    cases h
    exact .inl hi
  | datatype d =>
    rw [eq_of_add h] at hi
    exact .inl hi
  | iterator j =>
    rw [eq_of_add h] at hi
    rcases List.mem_cons.1 hi with rfl | hi
    · exact .inr rfl
    · exact .inl hi

/-- The class of an iterator of the context is found under the iterator's path. -/
theorem cls_of_iterator {program : Source.Program} {options : Options} {c : Context}
    (h : ofProgram program options = .ok c) {i : Iterator} (hi : i ∈ c.iterators) :
    c.cls i.path = .ok i.toClass := by
  have hdistinct := distinct_ofProgram h
  obtain ⟨c₁, hother, h⟩ := exists_of_bind h
  obtain ⟨c₂, hclass, h⟩ := exists_of_bind h
  cases h
  have hsame : c₂.iterators = c₁.iterators :=
    foldlM_keeps (p := fun d => d.iterators = c₁.iterators)
      (fun k _ d d' hd hp => (of_addClass hd).iterators.trans hp) hclass rfl
  have hdecl : TopDecl.iterator i ∈ program.flatMap (·.decls) := by
    have hall : ∀ j ∈ c₁.iterators, TopDecl.iterator j ∈ program.flatMap (·.decls) :=
      foldlM_keeps (p := fun c => ∀ j ∈ c.iterators, TopDecl.iterator j ∈ program.flatMap (·.decls))
        (fun d hd c c' hc hp j hj => (iterators_addOther hc hj).elim (hp j) fun e => e ▸ hd) hother
        (by simp)
    exact hall i (hsame ▸ hi)
  have hcls : i.toClass ∈ (program.flatMap (·.decls)).filterMap classOf? :=
    List.mem_filterMap.2 ⟨.iterator i, hdecl, rfl⟩
  have hmem : i.toClass ∈ c₂.classes :=
    foldlM_brings (p := fun c => i.toClass ∈ c.classes)
      (fun k _ c c' hc hp => by
        rw [(of_addClass hc).classes]
        exact List.mem_cons_of_mem _ hp) hcls
      (fun c c' hc => by
        rw [(of_addClass hc).classes]
        exact List.mem_cons_self) hclass
  have hfound : c₂.classes.find? (·.path = i.path) = some i.toClass :=
    find?_of_nodup hdistinct hmem
  show orBroken (c₂.classes.find? (·.path = i.path)) _ = _
  rw [hfound]
  rfl

end Context

end ContractLowering
