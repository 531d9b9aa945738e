import ContractLowering.Proofs.Lowering.FunctionReads
import ContractLowering.Proofs.Lowering.Induction
import ContractLowering.Proofs.Lowering.OtherViews
import ContractLowering.Proofs.Lowering.Quiet
import ContractLowering.Proofs.Lowering.Stores

/-!
# The code of forall assignments

A forall assignment is a free choice between its checks and its effect (`exists_forallAssignCode`).
What either says is said of a `Selection` in some scope: of the bound variables, of copies of them, and
where a local keeps the heap.
-/

namespace ContractLowering

open IL Source

/-! ## Selections -/

/-- What a forall assignment says of its bound variables: that they are in range, the location that
they select and the box that it is to hold. -/
structure Selection where
  holds : IL.Expr
  object : IL.Expr
  field : IL.Expr
  value : IL.Expr

/-- The location that a target of a forall assignment is in a view, and the type of its values. -/
inductive LocationOf (env : Env) (v : View) : Lhs → IL.Expr → IL.Expr → Typ → Prop where
  | field {span : Span} {obj : Source.Expr} {id : FieldId} {f : Field} {o : IL.Expr}
      (hf : env.context.field id = .ok f) (ho : (lowerExpr v obj).Returns env o) :
      LocationOf env v (.field span obj id) o (.var (env.handle f).name) f.typ
  | index {span : Span} {arr idx : Source.Expr} {o i : IL.Expr} {t : Typ}
      (hi : (lowerExpr v idx).Returns env i) (ho : (lowerExpr v arr).Returns env o)
      (ht : (arrayElem arr).Returns env t) :
      LocationOf env v (.index span arr idx) o (Prelude.indexField i) t

/-- What a forall assignment of values of a type says in a view. -/
structure Selection.Of (env : Env) (v : View) (d : Domain) (lhs : Lhs) (e : Source.Expr)
    (t : Typ) (p : Selection) : Prop where
  holds : (domainHolds v d).Returns env p.holds
  location : ∃ r, LocationOf env v lhs p.object p.field r
  value : (boxedValue v t e).Returns env p.value

namespace Selection

/-- That copies of the bound variables with other values select other locations, or are to store the
same. -/
def distinct (p p' : Selection) (n : Nat) (bs : List Source.Binder) (ts : List Trigger) : IL.Expr :=
  .all (sortBinders (Induction.renamed n bs)) ts
    (.imp (.conj [p'.holds, (IL.Expr.conj ((bs.zip (Induction.renamed n bs)).map fun (b, b') =>
        IL.Expr.eq (.var b.1) (.var b'.1))).neg])
      (.disj [.ne p.object p'.object, .ne p.field p'.field, .eq p.value p'.value]))

/-- That selected locations hold their values. -/
def written (p : Selection) (bs : List Source.Binder) (ts : List Trigger) : IL.Expr :=
  .all (sortBinders bs) ts
    (.imp p.holds (.eq (Prelude.read Prelude.heapVar p.object p.field) p.value))

/-- That a location is selected. -/
def selected (p : Selection) (bs : List Source.Binder) : IL.Expr :=
  .ex (sortBinders bs) [] (.conj [p.holds, .eq Heap.obj p.object, .eq Heap.fld p.field])

/-- That locations are selected or hold what they held in the heap before. -/
def kept (p : Selection) (bs : List Source.Binder) (prev : IL.Expr) : IL.Expr :=
  let newRead := Prelude.read Prelude.heapVar Heap.obj Heap.fld
  .all Heap.locationBinders [[newRead]]
    (.disj [.eq newRead (Prelude.read prev Heap.obj Heap.fld), p.selected bs])

end Selection

/-! ## The code -/

section

variable {c : Context} {s s' : Progress} {v : View} {d : Domain} {lhs : Lhs} {e : Source.Expr}
  {code : List IL.Stmt}

theorem Progress.Extends.later (h : s.Extends s') (hdeclared : c.Declared s'.handles) :
    s.Later c s' where
  same := by
    refine ⟨rfl, h.member, h.module, fun f hf => ?_⟩
    have hbefore : (s.env c).handle f = .ofField f :=
      Env.handle_of_declared (fun k hk => hdeclared k (h.handles.subset hk)) hf
    have hafter : (s'.env c).handle f = .ofField f := Env.handle_of_declared hdeclared hf
    rw [hafter, hbefore]
  counter := h.counter

/-- A step that does not lower statements, in a state that was reached from another one. -/
theorem domainHolds_stable (v : View) (d : Domain) : (domainHolds v d).Stable :=
  (bindersWhere_stable ..).bind fun _ => (lowerExpr?_stable ..).bind fun _ => .pure _

theorem boxedValue_stable (v : View) (t : Typ) (e : Source.Expr) : (boxedValue v t e).Stable :=
  (lowerExpr_stable ..).bind fun _ => .pure _

theorem arrayElem_stable (arr : Source.Expr) : (arrayElem arr).Stable := by
  unfold arrayElem
  split
  · exact .pure _
  · exact .ofExcept _

/-- What is lowered on the way from one state to another is lowered as in the first. -/
theorem Progress.Extends.returns {α : Type} {x : ExprM α} {a : α} {s₁ : Progress}
    (h : s.Extends s₁) (hx : x.Stable) (hdeclared : c.Declared s₁.handles)
    (ha : x.Returns (s₁.env c) a) : x.Returns (s.env c) a :=
  (hx.returns (h.later hdeclared).same).1 ha

theorem gives_lift {α : Type} {x : ExprM α} {a : α}
    (h : (liftM x : DeclM α).Gives c s a s') : x.Returns (s.env c) a ∧ s.Extends s' :=
  ⟨(DeclM.gives_ofExpr.1 h).1, (DeclM.Grows.ofExpr x).extends_of_gives h⟩

/-- A step that lowers an expression in a state that was reached from another one gives what it gives
there. -/
theorem emits_later_bind {α β : Type} {x : ExprM α} {f : α → BodyM β} {b : β} {ss : List IL.Stmt}
    {s₀ : Progress} (h₀ : s₀.Later c s) (hx : x.Stable)
    (h : ((liftM x : BodyM α) >>= f).Emits c s b ss s') :
    ∃ a s₁, x.Returns (s₀.env c) a ∧ s₀.Later c s₁ ∧ (f a).Emits c s₁ b ss s' := by
  obtain ⟨a, ha, hf⟩ := BodyM.emits_expr_bind.1 h
  have hrun : (DeclM.ofExpr x).Runs c s a _ := DeclM.gives_ofExpr.2 ⟨ha, rfl⟩
  exact ⟨a, _, (hx.returns h₀.same).1 ha, h₀.trans (hrun.ofExpr hx).2, hf⟩

theorem Progress.Extends.declared (h : s.Extends s') (hdeclared : c.Declared s'.handles) :
    c.Declared s.handles :=
  fun k hk => hdeclared k (h.handles.subset hk)

theorem returns_allAuto {env : Env} {bs : List IL.Binder} {body a : IL.Expr} :
    (allAuto bs body).Returns env a ↔
      ∃ ts, (autoTriggers (bs.map (·.1)) body).Returns env ts ∧ a = .all bs ts body := by
  rw [allAuto]
  simp only [ExprM.returns_bind, ExprM.returns_pure]

theorem LocationOf.of_same {env env' : Env} (hsame : env.Same env') {o f : IL.Expr} {t : Typ}
    (h : LocationOf env' v lhs o f t) : LocationOf env v lhs o f t := by
  cases h with
  | @field span obj id fd _ hf ho =>
    rw [hsame.context] at hf
    have hid : env.context.field fd.id = .ok fd := Context.id_of_field hf ▸ hf
    rw [hsame.handle fd hid]
    exact .field hf (((lowerExpr_stable ..).returns hsame).1 ho)
  | index hi ho ht =>
    exact .index (((lowerExpr_stable ..).returns hsame).1 hi)
      (((lowerExpr_stable ..).returns hsame).1 ho) (((arrayElem_stable _).returns hsame).1 ht)

theorem gives_forallLocation {o f : IL.Expr} {t : Typ} {s₀ : Progress} (h₀ : s₀.Later c s)
    (h : (forallLocation v lhs).Gives c s (o, f, t) s') (hdeclared : c.Declared s'.handles) :
    LocationOf (s₀.env c) v lhs o f t ∧ s₀.Later c s' := by
  have hall := ((forallLocation_grows _ _).extends_of_gives h).later hdeclared
  refine ⟨.of_same h₀.same ?_, h₀.trans hall⟩
  cases lhs with
  | var | range => exact (DeclM.gives_reject h).elim
  | field span obj id =>
    simp only [forallLocation, DeclM.gives_bind, DeclM.gives_pure, Prod.mk.injEq] at h
    obtain ⟨fd, s₁, hfd, k, s₂, hk, a, s₃, ha, ⟨rfl, rfl, rfl⟩, rfl⟩ := h
    obtain ⟨hfd, h₁⟩ := gives_lift hfd
    obtain ⟨hk, h₂⟩ := gives_lift hk
    obtain ⟨ha, h₃⟩ := gives_lift ha
    have hd₂ := h₃.declared hdeclared
    rw [ExprM.returns_field] at hfd
    obtain rfl := Heap.returns_fieldHandle.1 hk
    have hid : (s.env c).context.field fd.id = .ok fd := Context.id_of_field hfd ▸ hfd
    have hsame := (h₁.later (h₂.declared hd₂)).same.handle fd hid
    show LocationOf (s.env c) v _ _ (.var ((s₁.env c).handle fd).name) _
    rw [hsame]
    exact .field hfd ((h₁.trans h₂).returns (lowerExpr_stable ..) hd₂ ha)
  | index span arr idx =>
    simp only [forallLocation, DeclM.gives_bind, DeclM.gives_pure, Prod.mk.injEq] at h
    obtain ⟨i, s₁, hi, a, s₂, ha, elem, s₃, ht, ⟨rfl, rfl, rfl⟩, rfl⟩ := h
    obtain ⟨hi, h₁⟩ := gives_lift hi
    obtain ⟨ha, h₂⟩ := gives_lift ha
    obtain ⟨ht, h₃⟩ := gives_lift ht
    have hd₂ := h₃.declared hdeclared
    exact .index hi (h₁.returns (lowerExpr_stable ..) (h₂.declared hd₂) ha)
      ((h₁.trans h₂).returns (arrayElem_stable arr) hd₂ ht)

theorem LocationOf.typ_unique {env : Env} {v' : View} {o f o' f' : IL.Expr} {t t' : Typ}
    (h : LocationOf env v lhs o f t) (h' : LocationOf env v' lhs o' f' t') : t = t' := by
  cases h with
  | field hf _ =>
    cases h' with
    | field hf' _ => rw [Except.ok.inj (hf.symm.trans hf')]
  | index _ _ ht =>
    cases h' with
    | index _ _ ht' => exact ht.unique ht'

/-- The code of a forall assignment: a free choice between checks, of which the last one compares
the bound variables with copies of them, and the effect on the heap. -/
structure ForallAssignCode (c : Context) (s : Progress) (v : View) (span : Span) (d : Domain)
    (lhs : Lhs) (e : Source.Expr) (code : List IL.Stmt) where
  checks : List IL.Stmt
  msg : Message
  /-- The number of the copies. -/
  number : Nat
  /-- The number of the local that keeps the heap. -/
  saved : Nat
  typ : Typ
  here : Selection
  copied : Selection
  before : Selection
  distinctTriggers : List Trigger
  writtenTriggers : List Trigger
  fresh : s.decl.counter < number
  location : LocationOf (s.env c) v lhs here.object here.field typ
  ofHere : Selection.Of (s.env c) v d lhs e typ here
  ofCopied : Selection.Of (s.env c) v (d.copy number (Induction.toCopies span number d.binders))
    (lhs.subst (Induction.toCopies span number d.binders))
    (e.subst (Induction.toCopies span number d.binders)) typ copied
  ofBefore : Selection.Of (s.env c) { v with heap := .var (Naming.prevHeap saved) } d lhs e typ before
  code_eq : code = [.ifElse none
    (checks ++ [.assert msg (here.distinct copied number d.binders distinctTriggers), .assume .ff])
    [.assign (Naming.prevHeap saved) Prelude.heapVar, .havoc Prelude.heapName,
      .assume (.conj [Prelude.isGoodHeap Prelude.heapVar,
        Prelude.heapSucc (.var (Naming.prevHeap saved)) Prelude.heapVar]),
      .assume (before.written d.binders writtenTriggers),
      .assume (before.kept d.binders (.var (Naming.prevHeap saved)))]]

/-- The bound variables are in range where their values are chosen. -/
theorem exists_domain (h : (havocDomain v d).Emits c s () code s')
    (hdeclared : c.Declared s'.handles) :
    ∃ holds, (domainHolds v d).Returns (s.env c) holds := by
  obtain ⟨bs, range⟩ := d
  obtain ⟨_, s₁, ss₁, ss₂, hhavoc, h, -⟩ := BodyM.emits_bind.1 h
  have hbinders : s.Extends s₁ := BodyM.Quiet.extends_of_emits inferInstance hhavoc
  cases range with
  | none =>
    have h₁ := hbinders.later
      ((BodyM.Quiet.extends_of_emits inferInstance h).declared hdeclared)
    obtain ⟨w, s₂, hw, -, -⟩ := emits_later_bind h₁ (bindersWhere_stable ..) h
    exact ⟨_, hw.bind rfl⟩
  | some r =>
    have h₁ := hbinders.later
      ((BodyM.Quiet.extends_of_emits inferInstance h).declared hdeclared)
    obtain ⟨w, s₂, hw, h₂, h⟩ := emits_later_bind h₁ (bindersWhere_stable ..) h
    obtain ⟨_, h, -⟩ := BodyM.emits_add_bind.1 h
    simp only [BodyM.value, BodyM.define, bind_assoc] at h
    obtain ⟨defined, s₃, hdefined, h₃, h⟩ := emits_later_bind h₂ (definedness_has (T := .stable) ..) h
    obtain ⟨_, h, -⟩ := BodyM.emits_add_bind.1 h
    obtain ⟨x, s₄, hx, -, -⟩ := emits_later_bind h₃ (lowerExpr_stable ..) h
    refine ⟨.conj (w :: (some x).toList), hw.bind ?_⟩
    have hrange : (lowerExpr? v (some r)).Returns (s.env c) (some x) := by
      rw [lowerExpr?]
      exact hx.bind rfl
    exact hrange.bind rfl

theorem exists_distinct {s₀ : Progress} (h₀ : s₀.Later c s) (hdeclared : c.Declared s'.handles)
    (h : (assertInjective v span d lhs e).Emits c s () code s') {holds : IL.Expr}
    (hholds : (domainHolds v d).Returns (s₀.env c) holds) :
    ∃ msg n t, ∃ p p' : Selection, ∃ ts, s₀.decl.counter < n ∧
      LocationOf (s₀.env c) v lhs p.object p.field t ∧ p.Of (s₀.env c) v d lhs e t ∧
      p'.Of (s₀.env c) v (d.copy n (Induction.toCopies span n d.binders))
        (lhs.subst (Induction.toCopies span n d.binders))
        (e.subst (Induction.toCopies span n d.binders)) t ∧
      code = [.assert msg (p.distinct p' n d.binders ts)] := by
  obtain ⟨n, s₁, hn, h⟩ := BodyM.emits_decl_bind.1 h
  obtain ⟨⟨o, f, t⟩, s₂, hl, h⟩ := BodyM.emits_decl_bind.1 h
  obtain ⟨⟨o', f', t'⟩, s₃, hl', h⟩ := BodyM.emits_decl_bind.1 h
  have hd₃ : c.Declared s₃.handles :=
    (BodyM.Quiet.extends_of_emits inferInstance h).declared hdeclared
  have hd₂ := ((forallLocation_grows _ _).extends_of_gives hl').declared hd₃
  obtain ⟨hlt, hfresh⟩ := DeclM.Runs.freshId hn
  have h₁ := h₀.trans hfresh
  obtain ⟨hlocation, h₂⟩ := gives_forallLocation h₁ hl hd₂
  obtain ⟨hlocation', h₃⟩ := gives_forallLocation h₂ hl' hd₃
  obtain ⟨x, s₄, hx, h₄, h⟩ := emits_later_bind h₃ (boxedValue_stable ..) h
  obtain ⟨x', s₅, hx', h₅, h⟩ := emits_later_bind h₄ (boxedValue_stable ..) h
  obtain ⟨holds', s₆, hholds', h₆, h⟩ := emits_later_bind h₅ (domainHolds_stable ..) h
  obtain ⟨fact, s₇, hfact, h₇, h⟩ := emits_later_bind h₆ (allAuto_has (T := .stable) ..) h
  obtain ⟨ts, -, rfl⟩ := returns_allAuto.1 hfact
  obtain ⟨rfl, -⟩ := BodyM.emits_add.1 h
  exact ⟨_, n, t, ⟨holds, o, f, x⟩, ⟨holds', o', f', x'⟩, ts,
    Nat.lt_of_le_of_lt h₀.counter hlt, hlocation,
    ⟨hholds, ⟨t, hlocation⟩, hx⟩, ⟨hholds', ⟨t', hlocation'⟩, hx'⟩, rfl⟩

/-- The effect of a forall assignment. -/
theorem exists_effect {s₀ : Progress} (h₀ : s₀.Later c s) (hdeclared : c.Declared s'.handles)
    (h : (assignForall v d lhs e).Emits c s () code s') :
    ∃ n t, ∃ p : Selection, ∃ ts,
      LocationOf (s₀.env c) { v with heap := .var (Naming.prevHeap n) } lhs p.object p.field t ∧
      p.Of (s₀.env c) { v with heap := .var (Naming.prevHeap n) } d lhs e t ∧
      code = [.assign (Naming.prevHeap n) Prelude.heapVar, .havoc Prelude.heapName,
        .assume (.conj [Prelude.isGoodHeap Prelude.heapVar,
          Prelude.heapSucc (.var (Naming.prevHeap n)) Prelude.heapVar]),
        .assume (p.written d.binders ts),
        .assume (p.kept d.binders (.var (Naming.prevHeap n)))] := by
  simp only [assignForall, BodyM.havocHeap, BodyM.storeIn, bind_assoc, pure_bind] at h
  obtain ⟨n, s₁, hn, h⟩ := BodyM.emits_decl_bind.1 h
  obtain ⟨_, s₂, hlocal, h⟩ := BodyM.emits_decl_bind.1 h
  obtain ⟨_, h, hassign⟩ := BodyM.emits_add_bind.1 h
  obtain ⟨_, h, hhavoc⟩ := BodyM.emits_add_bind.1 h
  obtain ⟨_, h, hlater⟩ := BodyM.emits_add_bind.1 h
  obtain ⟨⟨o, f, t⟩, s₃, hl, h⟩ := BodyM.emits_decl_bind.1 h
  have hd₃ : c.Declared s₃.handles :=
    (BodyM.Quiet.extends_of_emits inferInstance h).declared hdeclared
  have hd₂ := ((forallLocation_grows _ _).extends_of_gives hl).declared hd₃
  have h₁ := h₀.trans (DeclM.Runs.freshId hn).2
  have h₂ := h₁.trans (((DeclM.Grows.declareLocal _ _).extends_of_gives hlocal).later hd₂)
  obtain ⟨hlocation, h₃⟩ := gives_forallLocation h₂ hl hd₃
  obtain ⟨x, s₄, hx, h₄, h⟩ := emits_later_bind h₃ (boxedValue_stable ..) h
  obtain ⟨holds, s₅, hholds, h₅, h⟩ := emits_later_bind h₄ (domainHolds_stable ..) h
  obtain ⟨fact, s₆, hfact, h₆, h⟩ := emits_later_bind h₅ (allAuto_has (T := .stable) ..) h
  obtain ⟨ts, -, hauto⟩ := returns_allAuto.1 hfact
  obtain ⟨_, h, hwritten⟩ := BodyM.emits_add_bind.1 h
  obtain ⟨hkept, -⟩ := BodyM.emits_add.1 h
  subst hassign hhavoc hlater hwritten hkept hauto
  exact ⟨n, t, ⟨holds, o, f, x⟩, ts, hlocation, ⟨hholds, ⟨t, hlocation⟩, hx⟩, rfl⟩

/-- What a forall assignment is lowered to. -/
theorem exists_forallAssignCode {b : Body}
    (h : (b.lowerStmt v (.forallAssign span d lhs e)).Emits c s () code s')
    (hdeclared : c.Declared s'.handles) : Nonempty (ForallAssignCode c s v span d lhs e code) := by
  unfold Body.lowerStmt forallChoice at h
  simp only [BodyM.emits_bind, BodyM.emits_block, BodyM.emits_add] at h
  obtain ⟨_, s₄, _, _, ⟨⟨_, s₁, ss₁, _, hdomain, ⟨target, s₂, ss₂, _, htarget, ⟨value, s₃, ss₃, _,
    hvalue, hdistinct, rfl⟩, rfl⟩, rfl⟩, rfl⟩, ⟨_, _, _, _, ⟨heffect, rfl⟩, ⟨rfl, rfl⟩, rfl⟩, rfl⟩ := h
  have hd₄ := (BodyM.Quiet.extends_of_emits inferInstance heffect).declared hdeclared
  have hd₃ := (BodyM.Quiet.extends_of_emits inferInstance hdistinct).declared hd₄
  have h₃ := BodyM.Quiet.extends_of_emits inferInstance hvalue
  have h₂ := BodyM.Quiet.extends_of_emits inferInstance htarget
  have h₁ := BodyM.Quiet.extends_of_emits inferInstance hdomain
  have hs₃ := ((h₁.trans h₂).trans h₃).later hd₃
  have hs₄ := hs₃.trans ((BodyM.Quiet.extends_of_emits inferInstance hdistinct).later hd₄)
  obtain ⟨holds, hholds⟩ := exists_domain hdomain (h₂.declared (h₃.declared hd₃))
  obtain ⟨msg, n, t, p, p', ts, hn, hp, hofp, hofp', rfl⟩ := exists_distinct hs₃ hd₄ hdistinct hholds
  obtain ⟨m, t', q, us, hq, hofq, rfl⟩ := exists_effect hs₄ hdeclared heffect
  obtain rfl := hp.typ_unique hq
  exact ⟨⟨ss₁ ++ (ss₂ ++ ss₃), msg, n, m, t, p, p', q, ts, us, hn, hp, hofp, hofp', hofq,
    by simp⟩⟩

end

end ContractLowering
