import ContractLowering.Proofs.Lowering.Traits

/-!
# Lowering does not depend on what was declared before

Between two lowerings of expressions more of the heap model gets declared. A field that is looked
up finds its handle if it was declared and else gives the one it will be declared with, and these
are the same. So an expression lowers to the same value whatever was lowered before it: every
lowering of expressions is `Stable`, and what is left of a run is its environment up to `Same`.
-/

namespace ContractLowering

open IL Source

/-- The handle under which an environment knows a field. -/
def Env.handle (env : Env) (f : Field) : FieldHandle :=
  (env.handles.find? (·.id = f.id)).getD (.ofField f)

/-- Environments that differ in declared fields only, and agree on how fields are known. -/
structure Env.Same (env env' : Env) : Prop where
  context : env'.context = env.context
  member : env'.member = env.member
  module : env'.module = env.module
  handle : ∀ f, env.context.field f.id = .ok f → env'.handle f = env.handle f

/-- A request for a field asks for the one that its identity denotes. -/
def Request.FromContext (c : Context) : Request → Prop
  | .field f => c.field f.id = .ok f
  | .cls _ | .arrayLength => True

/-- What a look-up gives stands in the list and is what was looked for. -/
theorem Context.mem_of_orBroken {α : Type} {p : α → Bool} {as : List α} {b : Broken} {a : α}
    (h : Context.orBroken (as.find? p) b = .ok a) : a ∈ as ∧ p a = true := by
  unfold Context.orBroken at h
  split at h
  · rename_i a' hfind
    obtain rfl : a' = a := Except.ok.inj h
    exact ⟨List.mem_of_find?_eq_some hfind, List.find?_some hfind⟩
  · cases h

/-- The field that an identity denotes has that identity. -/
theorem Context.id_of_field {c : Context} {p : FieldId} {f : Field} (h : c.field p = .ok f) :
    f.id = p := of_decide_eq_true (Context.mem_of_orBroken h).2

theorem Source.Datatype.mem_of_ctor {d : Datatype} {name : String} {k : Ctor}
    (h : d.ctor name = .ok k) : k ∈ d.ctors ∧ k.name = name :=
  (Context.mem_of_orBroken h).imp_right eq_of_beq

theorem Source.Ctor.mem_of_field {k : Ctor} {name : String} {b : Source.Binder}
    (h : k.field name = .ok b) : b ∈ k.fields ∧ b.1 = name :=
  (Context.mem_of_orBroken h).imp_right eq_of_beq

namespace Env.Same

theorem refl (env : Env) : env.Same env := ⟨rfl, rfl, rfl, fun _ _ => rfl⟩

theorem trans {e₁ e₂ e₃ : Env} (h : e₁.Same e₂) (h' : e₂.Same e₃) : e₁.Same e₃ where
  context := h'.context.trans h.context
  member := h'.member.trans h.member
  module := h'.module.trans h.module
  handle f hf := (h'.handle f (by rw [h.context]; exact hf)).trans (h.handle f hf)

end Env.Same

/-- A computation that gives the same in environments that are the same, and asks only for fields
of the context. -/
structure ExprM.Stable {α : Type} (x : ExprM α) : Prop where
  result : ∀ {env env' : Env}, env.Same env' → (x env').result = (x env).result
  requests : ∀ {env : Env}, ∀ r ∈ (x env).requests, r.FromContext env.context

namespace ExprM.Stable

variable {α β : Type}

theorem returns {x : ExprM α} (h : x.Stable) {env env' : Env} (he : env.Same env') {a : α} :
    x.Returns env' a ↔ x.Returns env a := by
  rw [ExprM.Returns, ExprM.Returns, h.result he]

@[simp] theorem pure (a : α) : (Pure.pure a : ExprM α).Stable := ⟨fun _ => rfl, by simp [Pure.pure]⟩

@[simp] theorem ofExcept (r : Except Broken α) : (ExprM.ofExcept r).Stable :=
  ⟨fun _ => rfl, by simp [ExprM.ofExcept]⟩

theorem bind {x : ExprM α} {f : α → ExprM β} (hx : x.Stable) (hf : ∀ a, (f a).Stable) :
    (x >>= f).Stable where
  result := by
    intro env env' he
    rw [ExprM.bind_result, ExprM.bind_result, hx.result he]
    cases (x env).result with
    | error b => rfl
    | ok a => exact (hf a).result he
  requests := by
    intro env r hr
    rw [ExprM.bind_requests, List.mem_append] at hr
    rcases hr with hr | hr
    · exact hx.requests r hr
    · cases h : (x env).result with
      | error b => simp [h] at hr
      | ok a => exact (hf a).requests r (by simpa [h] using hr)

theorem mapM {f : α → ExprM β} {l : List α} (h : ∀ a ∈ l, (f a).Stable) : (l.mapM f).Stable := by
  induction l with
  | nil => exact pure []
  | cons a l ih =>
    rw [List.mapM_cons]
    exact (h a (by simp)).bind fun _ => (ih fun b hb => h b (by simp [hb])).bind fun _ => pure _

/-- What depends on the context alone. -/
theorem ofContext {x : ExprM α} (g : Context → Except Broken α)
    (h : ∀ env, x env = ⟨[], g env.context⟩) : x.Stable where
  result := by intro env env' he; rw [h, h, he.context]
  requests := by intro env; simp [h]

@[simp] theorem options : ExprM.options.Stable := ofContext (fun c => .ok c.options) fun _ => rfl

@[simp] theorem function (p : Path) : (ExprM.function p).Stable :=
  ofContext (·.function p) fun _ => rfl

@[simp] theorem datatype (p : Path) : (ExprM.datatype p).Stable :=
  ofContext (·.datatype p) fun _ => rfl

@[simp] theorem field (p : FieldId) : (ExprM.field p).Stable := ofContext (·.field p) fun _ => rfl

@[simp] theorem isRecursive (p : Path) : (ExprM.isRecursive p).Stable :=
  ofContext (fun c => .ok (c.calls.isRecursive p)) fun _ => rfl

@[simp] theorem inSameComponent (p q : Path) : (ExprM.inSameComponent p q).Stable :=
  ofContext (fun c => .ok (c.calls.inSameComponent p q)) fun _ => rfl

@[simp] theorem isSameModule (p : Path) : (ExprM.isSameModule p).Stable where
  result := by intro env env' he; simp [ExprM.isSameModule, ExprM.env, Bind.bind, ExprM.seq,
    Pure.pure, he.module]
  requests := by intro env; simp [ExprM.isSameModule, ExprM.env, Bind.bind, ExprM.seq, Pure.pure]

@[simp] theorem classConst (p : Path) : (Heap.classConst p).Stable where
  result _ := rfl
  requests := by
    intro env r hr
    obtain rfl : r = .cls p := by
      simpa [Heap.classConst, ExprM.request, Bind.bind, ExprM.seq, Pure.pure] using hr
    trivial

@[simp] theorem arrayLength (a : IL.Expr) : (Heap.arrayLength a).Stable where
  result _ := rfl
  requests := by
    intro env r hr
    obtain rfl : r = .arrayLength := by
      simpa [Heap.arrayLength, ExprM.request, Bind.bind, ExprM.seq, Pure.pure] using hr
    trivial

/-- What reads the environment, but not its declared fields. -/
theorem ofEnv {k : Env → ExprM β} (h : ∀ env, (k env).Stable)
    (hk : ∀ {env env' : Env}, env.Same env' → k env' = k env) : (ExprM.env >>= k).Stable where
  result := by
    intro env env' he
    rw [ExprM.bind_result, ExprM.bind_result]
    show (k env' env').result = (k env env).result
    rw [hk he]
    exact (h env).result he
  requests := by
    intro env r hr
    exact (h env).requests r hr

/-- Looking a field up and then its handle. -/
theorem fieldHandle (p : FieldId) {k : Field → FieldHandle → ExprM β}
    (hk : ∀ f h, (k f h).Stable) :
    (ExprM.field p >>= fun f => Heap.fieldHandle f >>= k f).Stable where
  result := by
    intro env env' he
    have hc := he.context
    show (ExprM.seq (ExprM.field p) _ env').result = (ExprM.seq (ExprM.field p) _ env).result
    simp only [ExprM.seq, ExprM.field, ExprM.env, Bind.bind, ExprM.ofExcept, hc]
    cases h : env.context.field p with
    | error b => rfl
    | ok f =>
      have hf : env.context.field f.id = .ok f := by rw [Context.id_of_field h]; exact h
      have hh := he.handle f hf
      simp only [Env.handle] at hh
      simp only [Heap.fieldHandle, ExprM.request, Bind.bind, ExprM.seq, ExprM.env, Pure.pure, hh]
      exact (hk f _).result he
  requests := by
    intro env
    show ∀ r ∈ (ExprM.seq (ExprM.field p) _ env).requests, _
    simp only [ExprM.seq, ExprM.field, ExprM.env, Bind.bind, ExprM.ofExcept]
    cases h : env.context.field p with
    | error b => simp
    | ok f =>
      simp only [Heap.fieldHandle, ExprM.request, Bind.bind, ExprM.seq, ExprM.env, Pure.pure,
        List.nil_append, List.append_nil, List.cons_append, List.mem_cons]
      rintro r (rfl | hr)
      · show env.context.field f.id = .ok f
        rw [Context.id_of_field h]; exact h
      · exact (hk f _).requests r hr

end ExprM.Stable

/-! ## Expressions -/

/-- Giving the same in environments that are the same. -/
def ExprM.Trait.stable : ExprM.Trait where
  Has x := x.Stable
  pure := .pure
  ofExcept := .ofExcept
  bind := .bind
  options := .options
  datatype := .datatype
  field := .field
  isRecursive := .isRecursive
  inSameComponent := .inSameComponent
  isSameModule := .isSameModule
  classConst := .classConst
  arrayLength := .arrayLength
  function p _ h _ := (Stable.function p).bind h
  fieldHandle p _ h := .fieldHandle p h
  env h hk := .ofEnv h fun he => hk he.member (by rw [he.context])

open ExprM (Stable)

theorem lowerExpr_stable (e : Source.Expr) (v : View) : (lowerExpr v e).Stable :=
  lowerExpr_has (T := .stable) e v

theorem lowerExpr?_stable (v : View) (o : Option Source.Expr) : (lowerExpr? v o).Stable :=
  lowerExpr?_has (T := .stable) v o

theorem lowerBindings_stable (v : View) (bs : List (String × Source.Expr)) :
    (lowerBindings v bs).Stable :=
  lowerBindings_has (T := .stable) v bs

theorem lowerTriggers_stable (v : View) (ts : List (List Source.Expr)) :
    (lowerTriggers v ts).Stable :=
  lowerTriggers_has (T := .stable) v ts

theorem bindersWhere_stable (heap : IL.Expr) (bs : List Source.Binder) :
    (bindersWhere heap bs).Stable :=
  bindersWhere_has (T := .stable) heap bs

theorem definedness_stable (v : View) (limits : Limits) (e : Source.Expr) :
    (definedness v limits e).Stable :=
  definedness_has (T := .stable) v limits e

theorem isTotal_stable (v : View) (e : Source.Expr) : (isTotal v e).Stable :=
  isTotal_has (T := .stable) v e

theorem canCall_stable (v : View) (e : Source.Expr) : (canCall v e).Stable :=
  canCall_has (T := .stable) v e

/-! ## Declarations between lowerings -/

namespace Progress

variable {c : Context} {s : Progress}

@[simp] theorem env_emit (d : IL.Decl) : (s.emit d).env c = s.env c := rfl

@[simp] theorem env_ask (r : Request) : (s.ask r).env c = s.env c := rfl

@[simp] theorem handles_ask (r : Request) : (s.ask r).handles = s.handles := rfl

@[simp] theorem decl_ask (r : Request) : (s.ask r).decl = s.decl := rfl

@[simp] theorem env_declareClass (p : Path) : (s.declareClass p).env c = s.env c := by
  unfold declareClass
  split <;> rfl

@[simp] theorem handles_declareClass (p : Path) : (s.declareClass p).handles = s.handles := by
  unfold declareClass
  split <;> rfl

@[simp] theorem decl_declareClass (p : Path) : (s.declareClass p).decl = s.decl := by
  unfold declareClass
  split <;> rfl

/-- A field is declared with the handle by which it was known before. -/
theorem same_declareField {f : Field} (h : c.field f.id = .ok f) :
    (s.env c).Same ((s.declareField f).env c) := by
  unfold declareField
  split
  · exact .refl _
  · rename_i hnew
    refine ⟨rfl, ?_, ?_, fun g hg => ?_⟩
    · split <;> simp [env, emitAll]
    · split <;> simp [env, emitAll]
    · have hhandles : (if f.isMutable then (s.ask (.cls f.id.owner)).declareClass f.id.owner
          else s).handles = s.handles := by split <;> simp
      by_cases hid : g.id = f.id
      · obtain rfl : f = g := by
          rw [hid] at hg
          exact Except.ok.inj (h.symm.trans hg)
        have hnone : s.handles.find? (·.id = f.id) = none := by simpa using hnew
        simp [Env.handle, env, FieldHandle.ofField, hnone]
      · have hne : ¬ f.id = g.id := fun he => hid he.symm
        simp [Env.handle, env, FieldHandle.ofField, hhandles, hne]

theorem same_declare {r : Request} (h : r.FromContext c) :
    (s.env c).Same ((s.declare r).env c) := by
  cases r with
  | cls p => simpa [declare] using Env.Same.refl _
  | field f => exact same_declareField (s := s.ask (.field f)) h
  | arrayLength =>
    show (s.env c).Same ((s.ask .arrayLength).declareArrayLength.env c)
    unfold declareArrayLength
    split
    · exact .refl _
    · exact .refl _

theorem same_foldl_declare {rs : List Request} (h : ∀ r ∈ rs, r.FromContext c) :
    (s.env c).Same ((rs.foldl declare s).env c) := by
  induction rs generalizing s with
  | nil => exact .refl _
  | cons r rs ih =>
    exact (same_declare (h r (by simp))).trans (ih fun q hq => h q (by simp [hq]))

@[simp] theorem decl_declare (r : Request) : (s.declare r).decl = s.decl := by
  cases r with
  | cls p => exact decl_declareClass p
  | field f =>
    show ((s.ask (.field f)).declareField f).decl = s.decl
    unfold declareField
    split
    · rfl
    · split
      · exact decl_declareClass _
      · rfl
  | arrayLength =>
    show (s.ask .arrayLength).declareArrayLength.decl = s.decl
    unfold declareArrayLength
    split <;> rfl

@[simp] theorem decl_foldl_declare (rs : List Request) : (rs.foldl declare s).decl = s.decl := by
  induction rs generalizing s with
  | nil => rfl
  | cons r rs ih => rw [List.foldl_cons, ih, decl_declare]

/-- A state in which expressions lower as before, and in which more numbers may be taken. -/
structure Later (c : Context) (s s' : Progress) : Prop where
  same : (s.env c).Same (s'.env c)
  counter : s.decl.counter ≤ s'.decl.counter

theorem Later.refl (c : Context) (s : Progress) : s.Later c s := ⟨.refl _, Nat.le_refl _⟩

theorem Later.trans {s₁ s₂ s₃ : Progress} (h : s₁.Later c s₂) (h' : s₂.Later c s₃) :
    s₁.Later c s₃ :=
  ⟨h.same.trans h'.same, Nat.le_trans h.counter h'.counter⟩

end Progress

namespace DeclM

variable {α β : Type} {c : Context} {s s' : Progress}

/-- A computation gives a value and leaves a state behind. -/
def Runs (x : DeclM α) (c : Context) (s : Progress) (a : α) (s' : Progress) : Prop :=
  x c s = (.ok a, s')

@[simp] theorem runs_pure {a b : α} : (pure a : DeclM α).Runs c s b s' ↔ b = a ∧ s' = s := by
  constructor
  · intro h; cases h; exact ⟨rfl, rfl⟩
  · rintro ⟨rfl, rfl⟩; rfl

@[simp] theorem runs_bind {x : DeclM α} {f : α → DeclM β} {b : β} :
    (x >>= f).Runs c s b s' ↔ ∃ a s₁, x.Runs c s a s₁ ∧ (f a).Runs c s₁ b s' := by
  show seq x f c s = _ ↔ _
  unfold seq Runs
  rcases x c s with ⟨_ | a, s₁⟩ <;> simp

@[simp] theorem runs_context {a : Context} : context.Runs c s a s' ↔ a = c ∧ s' = s := by
  constructor
  · intro h; cases h; exact ⟨rfl, rfl⟩
  · rintro ⟨rfl, rfl⟩; rfl

/-- A stable lowering of an expression gives its value and keeps the environment. -/
theorem Runs.ofExpr {x : ExprM α} {a : α} (h : (DeclM.ofExpr x).Runs c s a s') (hx : x.Stable) :
    x.Returns (s.env c) a ∧ s.Later c s' := by
  simp only [Runs, DeclM.ofExpr, Prod.mk.injEq] at h
  obtain ⟨hr, rfl⟩ := h
  refine ⟨?_, Progress.same_foldl_declare fun r hr => hx.requests r hr, ?_⟩
  · cases hres : (x (s.env c)).result with
    | error b => simp [hres, Except.mapError] at hr
    | ok b =>
      simp only [hres, Except.mapError, Except.ok.injEq] at hr
      rw [ExprM.Returns, hres, hr]
  · simp

/-- A fresh number is above all that were taken before. -/
theorem Runs.freshId {n : Nat} (h : freshId.Runs c s n s') :
    s.decl.counter < n ∧ s.Later c s' := by
  simp only [Runs, DeclM.freshId, Progress.freshId, Prod.mk.injEq, Except.ok.injEq] at h
  obtain ⟨rfl, rfl⟩ := h
  exact ⟨Nat.lt_succ_self _, .refl _, Nat.le_succ _⟩

end DeclM

end ContractLowering
