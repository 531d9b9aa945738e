import ContractLowering.Proofs.Lowering.Evaluated
import ContractLowering.Proofs.Lowering.Fragments
import ContractLowering.Proofs.Lowering.Writing

/-!
# Assertions that integers are natural numbers

Steps of statement lowerings that move the value of an integer expression to a place for natural
numbers: initialisations, assignments, results and arguments. Each of them asserts that the value is
natural right before it moves it (`Moved`), after statements without control flow (`Simple`).
-/

namespace ContractLowering

open IL Source BodyM

/-- Statements without control flow. -/
def IL.Stmt.isSimple : IL.Stmt → Bool
  | .assume _ | .assert .. | .havoc _ | .assign .. => true
  | _ => false

/-- Steps that only prepare a value. -/
abbrev Simple {α : Type} (x : BodyM α) : Prop := Writes (fun t => t.isSimple) x

theorem Simple.of_writing {α : Type} {x : BodyM α} {V : α → Prop}
    (h : ∀ c, x.Lays c (.writing fun _ => True) V) : Simple x := by
  intro c s a ss s' hx t ht
  have := (h c trivial hx).2.1 t ht
  cases t <;> simp_all [IL.Stmt.Writing, IL.Stmt.isSimple]

namespace Simple

theorem writesOwn : WritesOwn fun _ => True := ⟨fun _ _ => trivial, trivial⟩

theorem value (v : View) (e : Source.Expr) : Simple (BodyM.value v e) :=
  of_writing fun _ => Writing.value v e

theorem temp (s : Srt) (e : IL.Expr) : Simple (BodyM.temp s e) :=
  of_writing fun _ => Writing.temp writesOwn s e

end Simple

/-- An expression is lowered to another one. -/
def LowersTo (c : Context) (v : View) (e : Source.Expr) (a : IL.Expr) : Prop :=
  ∃ env : Env, env.context = c ∧ (lowerExpr v e).Returns env a

/-- Code that asserts a value to be natural, after statements without control flow. -/
def Asserted (a : IL.Expr) (ss : List IL.Stmt) : Prop :=
  ∃ pre msg post, (∀ t ∈ pre, t.isSimple) ∧ ss = pre ++ .assert msg (.le (.nat 0) a) :: post

/-- Code that asserts a value to be natural right before it moves it to a local or into the heap. -/
inductive Moved (a : IL.Expr) : List IL.Stmt → Prop
  | toLocal {pre : List IL.Stmt} (hpre : ∀ t ∈ pre, t.isSimple) (msg : Message) (x : String)
      (post : List IL.Stmt) :
      Moved a (pre ++ .assert msg (.le (.nat 0) a) :: .assign x a :: post)
  | toHeap {pre : List IL.Stmt} (hpre : ∀ t ∈ pre, t.isSimple) (msg : Message) (o f : IL.Expr)
      (post : List IL.Stmt) :
      Moved a (pre ++ .assert msg (.le (.nat 0) a) ::
        .assign Prelude.heapName (Prelude.update Prelude.heapVar o f (Boxing.box .nat a)) :: post)

theorem simple_append {ss ts : List IL.Stmt} (hs : ∀ t ∈ ss, t.isSimple)
    (ht : ∀ t ∈ ts, t.isSimple) : ∀ t ∈ ss ++ ts, t.isSimple := fun t h =>
  (List.mem_append.1 h).elim (hs t) (ht t)

theorem Moved.append {a : IL.Expr} {ss : List IL.Stmt} (h : Moved a ss) {before : List IL.Stmt}
    (hb : ∀ t ∈ before, t.isSimple) (after : List IL.Stmt) : Moved a (before ++ ss ++ after) := by
  cases h with
  | toLocal hpre msg x post =>
    simpa using toLocal (a := a) (simple_append hb hpre) msg x (post ++ after)
  | toHeap hpre msg o f post =>
    simpa using toHeap (a := a) (simple_append hb hpre) msg o f (post ++ after)

theorem Moved.asserted {a : IL.Expr} {ss : List IL.Stmt} (h : Moved a ss) : Asserted a ss := by
  cases h with
  | toLocal hpre msg x post => exact ⟨_, msg, _, hpre, rfl⟩
  | toHeap hpre msg o f post => exact ⟨_, msg, _, hpre, rfl⟩

theorem value_lowersTo {c : Context} {s s' : Progress} {v : View} {e : Source.Expr} {x : IL.Expr}
    {ss : List IL.Stmt} (h : (value v e).Emits c s x ss s') : LowersTo c v e x := by
  simp only [value, emits_bind, emits_expr] at h
  obtain ⟨_, s₁, _, _, -, ⟨⟨hx, -⟩, -⟩, -⟩ := h
  exact ⟨_, rfl, hx⟩

/-- A value that is checked to be natural, before it is used. -/
theorem value_asserts {β : Type} {c : Context} {s s' : Progress} {v : View} {e : Source.Expr}
    (he : e.typ = .int) {f : IL.Expr → BodyM β} {b : β} {ss : List IL.Stmt}
    (h : (value v e >>= fun x => assertNat e .nat (Boxing.convert e.typ .nat x) >>= fun _ =>
      f (Boxing.convert e.typ .nat x)).Emits c s b ss s') :
    ∃ a pre rest s₁, LowersTo c v e a ∧ (∀ t ∈ pre, t.isSimple) ∧ (f a).Emits c s₁ b rest s' ∧
      ss = pre ++ [.assert (natMessage e.span) (.le (.nat 0) a)] ++ rest := by
  obtain ⟨a, s₁, pre, _, ha, h₁, rfl⟩ := emits_bind.1 h
  obtain ⟨_, s₂, checked, rest, hassert, hf, rfl⟩ := emits_bind.1 h₁
  have hconv : Boxing.convert .int .nat a = a := rfl
  simp only [assertNat, he, needsNatCheck, if_true, BodyM.assert, emits_add, hconv] at hassert
  obtain ⟨rfl, rfl⟩ := hassert
  rw [he, hconv] at hf
  exact ⟨a, pre, rest, _, value_lowersTo ha, Simple.value v e ha, hf, by simp⟩

theorem evalRhs_asserts {c : Context} {s s' : Progress} {v : View} {e : Source.Expr}
    (he : e.typ = .int) {x : IL.Expr} {ss : List IL.Stmt}
    (h : (evalRhs v .nat (.expr e)).Emits c s x ss s') :
    LowersTo c v e x ∧ ∃ pre, (∀ t ∈ pre, t.isSimple) ∧
      ss = pre ++ [.assert (natMessage e.span) (.le (.nat 0) x)] := by
  obtain ⟨a, pre, rest, s₁, hlow, hpre, hx, rfl⟩ := value_asserts (f := Pure.pure) he h
  obtain ⟨rfl, rfl, rfl⟩ := emits_pure.1 hx
  exact ⟨hlow, pre, hpre, by simp⟩

theorem lowerVarDecl_moves {c : Context} {s s' : Progress} {v : View} {x : String}
    {e : Source.Expr} (he : e.typ = .int) {ss : List IL.Stmt}
    (h : (lowerVarDecl v x .nat (some (.expr e))).Emits c s () ss s') :
    ∃ a, LowersTo c v e a ∧ Moved a ss := by
  simp only [lowerVarDecl, emits_decl_bind] at h
  obtain ⟨_, s₁, -, h⟩ := h
  simp only [BodyM.assign, emits_bind, emits_add] at h
  obtain ⟨a, s₂, ts, _, ha, ⟨rfl, rfl⟩, rfl⟩ := h
  obtain ⟨hlow, pre, hpre, rfl⟩ := evalRhs_asserts he ha
  exact ⟨a, hlow, by simpa using Moved.toLocal hpre _ x []⟩

/-! ## Assignments -/

theorem Source.Lhs.within_any (lhs : Lhs) : lhs.Within fun _ => True := by cases lhs <;> trivial

theorem Target.within_any (t : Target) : t.Within fun _ => True := by cases t <;> trivial

namespace Simple

theorem assertNat (e : Source.Expr) (t : Typ) (x : IL.Expr) : Simple (BodyM.assertNat e t x) :=
  of_writing fun _ => Writing.assertNat e t x

theorem ofLhs (v : View) (lhs : Lhs) : Simple (Target.ofLhs v lhs) :=
  of_writing fun _ => Writing.ofLhs writesOwn v lhs.within_any

theorem evalStore (v : View) (several : Bool) (p : (Lhs × Target) × Rhs) :
    Simple (ContractLowering.evalStore v several p) :=
  of_writing fun _ => Writing.evalStore writesOwn v several p.1.2.within_any

theorem rejectRepeated (span : Span) (targets : List Target) :
    Simple (ContractLowering.rejectRepeated span targets) :=
  of_writing fun _ => Writing.rejectRepeated span targets

end Simple

/-- The type of the values that a target holds. -/
def Source.Lhs.Holds (c : Context) : Lhs → Typ → Prop
  | .var _ _ t, u => t = u
  | .field _ _ f, u => ∃ fld, c.field f = .ok fld ∧ fld.typ = u
  | .index _ arr _, u | .range _ arr _ _, u => arr.typ = .array u

theorem elem_of_array {env : Env} {arr : Source.Expr} {t u : Typ} (harr : arr.typ = .array u)
    (h : (arrayElem arr).Returns env t) : t = u := by
  simpa [arrayElem, harr] using h

theorem ofLhs_typ {c : Context} {s s' : Progress} {v : View} {lhs : Lhs} {t : Target} {u : Typ}
    {ss : List IL.Stmt} (hl : lhs.Holds c u) (h : (Target.ofLhs v lhs).Emits c s t ss s') :
    t.typ = u := by
  cases lhs with
  | var span x typ =>
    obtain ⟨rfl, -⟩ := emits_pure.1 h
    exact hl
  | field span obj fid =>
    obtain ⟨fld, hfld, rfl⟩ := hl
    simp only [Target.ofLhs, emits_expr_bind, ExprM.returns_field] at h
    obtain ⟨f, hf, h⟩ := h
    obtain rfl : f = fld := Except.ok.inj (hf.symm.trans hfld)
    split at h
    · obtain ⟨_, _, hreject, -⟩ := emits_decl_bind.1 h
      exact (DeclM.gives_reject hreject).elim
    · exact (Yields.bind fun _ => Yields.bind fun _ => Yields.bind fun _ => Yields.bind fun _ =>
        Yields.bind fun _ => .pure rfl : Yields (fun t : Target => t.typ = f.typ) _) h
  | index span arr idx =>
    simp only [Target.ofLhs, emits_expr_bind] at h
    obtain ⟨elem, helem, h⟩ := h
    obtain rfl := elem_of_array hl helem
    exact (Yields.bind fun _ => Yields.bind fun _ => Yields.bind fun _ => Yields.bind fun _ =>
      Yields.bind fun _ => Yields.bind fun _ => Yields.bind fun _ => Yields.bind fun _ =>
      Yields.bind fun _ => Yields.bind fun _ => .pure rfl :
        Yields (fun t : Target => t.typ = elem) _) h
  | range span arr lo hi =>
    simp only [Target.ofLhs, emits_expr_bind] at h
    obtain ⟨elem, helem, h⟩ := h
    obtain rfl := elem_of_array hl helem
    exact (Yields.bind fun _ => Yields.bind fun _ => Yields.bind fun _ => Yields.bind fun _ =>
      Yields.bind fun _ => Yields.bind fun _ => Yields.bind fun _ => Yields.bind fun _ =>
      Yields.bind fun _ => Yields.bind fun _ => Yields.bind fun _ => Yields.bind fun _ =>
      Yields.bind fun _ => .pure rfl : Yields (fun t : Target => t.typ = elem) _) h

theorem exists_zip_of_forall₂ {α β γ : Type} {R : α → β → Prop} {l : List α} {bs : List β}
    (h : List.Forall₂ R l bs) {ds : List γ} {a : α} {d : γ} (hmem : (a, d) ∈ l.zip ds) :
    ∃ b, R a b ∧ ((a, b), d) ∈ (l.zip bs).zip ds := by
  induction h generalizing ds with
  | nil => simp at hmem
  | cons hab _ ih =>
    cases ds with
    | nil => simp at hmem
    | cons d' ds =>
      rcases List.mem_cons.1 hmem with heq | hmem
      · cases heq
        exact ⟨_, hab, by simp⟩
      · obtain ⟨b, hb, hmem⟩ := ih hmem
        exact ⟨b, hb, by simp [hmem]⟩

/-- A value that is stored in a fresh local. -/
theorem temp_emits {c : Context} {s s' : Progress} {srt : Srt} {a x : IL.Expr} {ss : List IL.Stmt}
    (h : (temp srt a).Emits c s x ss s') : ∃ y, ss = [.assign y a] := by
  simp only [temp, storeIn, BodyM.assign, emits_decl_bind, emits_add_bind, emits_pure] at h
  obtain ⟨n, s₁, -, _, s₂, -, us, ⟨-, rfl, -⟩, rfl⟩ := h
  exact ⟨_, rfl⟩

/-- A checked value that is moved through a fresh local. -/
theorem moved_of_temp {pre : List IL.Stmt} (hpre : ∀ t ∈ pre, t.isSimple) (msg : Message)
    (a : IL.Expr) (y : String) :
    Moved a (pre ++ [.assert msg (.le (.nat 0) a)] ++ [.assign y a]) := by
  simpa using Moved.toLocal (a := a) hpre msg y []

theorem store_moved {c : Context} {s s' : Progress} {t : Target} (ht : t.typ = .nat)
    (hr : t.isRange = false) {a : IL.Expr} {ss pre : List IL.Stmt}
    (hpre : ∀ t ∈ pre, t.isSimple) (msg : Message) (h : (t.store a).Emits c s () ss s') :
    Moved a (pre ++ [.assert msg (.le (.nat 0) a)] ++ ss) := by
  cases t with
  | var x typ =>
    obtain ⟨rfl, -⟩ := emits_add.1 h
    exact moved_of_temp hpre msg a x
  | heap o f typ =>
    obtain rfl : typ = .nat := ht
    simp only [Target.store, updateHeap, BodyM.assign, assumeGoodHeap, BodyM.assume, emits_add_bind,
      emits_add] at h
    obtain ⟨us, ⟨rfl, -⟩, rfl⟩ := h
    simpa using Moved.toHeap (a := a) hpre msg o f [.assume (Prelude.isGoodHeap Prelude.heapVar)]
  | range => cases hr

theorem eq_singleton_of_mem {α : Type} {l : List α} {a : α} (ha : a ∈ l) (hl : l.length ≤ 1) :
    l = [a] := by
  match l, ha, hl with
  | [b], ha, _ => rw [List.mem_singleton.1 ha]

/-- The value of a target is checked, and kept in a fresh local where `keepValue` says so. -/
theorem evalStore_asserts {c : Context} {s s' : Progress} {v : View} {several : Bool} {lhs : Lhs}
    {target : Target} (ht : target.typ = .nat) {e : Source.Expr} (he : e.typ = .int) {b : Store}
    {ss : List IL.Stmt} (h : (evalStore v several ((lhs, target), .expr e)).Emits c s b ss s') :
    ∃ a pre kept s₁ s₂, LowersTo c v e a ∧ (∀ t ∈ pre, t.isSimple) ∧
      (keepValue several target a).Emits c s₁ b.value kept s₂ ∧ b.target = target ∧
        ss = pre ++ [.assert (natMessage e.span) (.le (.nat 0) a)] ++ kept := by
  obtain ⟨a, s₁, _, _, ha, h₁, rfl⟩ := emits_bind.1 h
  rw [ht] at ha
  obtain ⟨hlow, pre, hpre, rfl⟩ := evalRhs_asserts he ha
  obtain ⟨y, s₂, kept, _, hy, hb, rfl⟩ := emits_bind.1 h₁
  obtain ⟨rfl, rfl, rfl⟩ := emits_pure.1 hb
  exact ⟨a, pre, kept, s₁, _, hlow, hpre, hy, rfl, by simp⟩

theorem lowerAssign_moves {c : Context} {s s' : Progress} {v : View} {span : Span}
    {lhss : List Lhs} {rhss : List Rhs} {lhs : Lhs} {e : Source.Expr}
    (hmem : (lhs, Rhs.expr e) ∈ lhss.zip rhss) (hl : lhs.Holds c .nat) (he : e.typ = .int)
    {ss : List IL.Stmt} (h : (lowerAssign v span lhss rhss).Emits c s () ss s') :
    ∃ a, LowersTo c v e a ∧ Moved a ss := by
  rw [lowerAssign_eq] at h
  obtain ⟨targets, s₁, first, _, htargets, h₁, rfl⟩ := emits_bind.1 h
  obtain ⟨_, s₂, none, _, hnone, h₂, rfl⟩ := emits_bind.1 h₁
  obtain ⟨stores, s₃, mid, _, hstores, h₃, rfl⟩ := emits_bind.1 h₂
  obtain ⟨_, s₄, distinct, last, hdistinct, hlast, rfl⟩ := emits_bind.1 h₃
  have hfirst : ∀ t ∈ first ++ none, t.isSimple :=
    simple_append (Writes.mapM (Simple.ofLhs v) htargets)
      (Simple.rejectRepeated span targets hnone)
  have htyp := htargets.mapM_forall₂ (R := fun l t => ∀ u, l.Holds c u → t.typ = u)
    fun _ _ _ _ _ ht u hu => ofLhs_typ hu ht
  obtain ⟨target, htarget, hmem⟩ := exists_zip_of_forall₂ htyp hmem
  have htarget := htarget .nat hl
  by_cases hkeep : (decide (targets.length > 1) || target.isRange) = true
  · -- the value goes through a local, whatever comes before and after it
    have hmid := Writes.mapM (Simple.evalStore v _) hstores
    obtain ⟨before, after, t₁, b, ts, t₂, hts, -, rfl⟩ := hstores.mapM_mem hmem
    obtain ⟨a, pre, kept, u₁, u₂, hlow, hpre, hkept, -, rfl⟩ := evalStore_asserts htarget he hts
    unfold keepValue at hkept
    rw [if_pos hkeep] at hkept
    obtain ⟨z, rfl⟩ := temp_emits hkept
    have hbefore : ∀ t ∈ first ++ none ++ before, t.isSimple :=
      simple_append hfirst fun t ht => hmid t (by simp [ht])
    refine ⟨a, hlow, ?_⟩
    simpa using (moved_of_temp hpre (natMessage e.span) a z).append hbefore
      (after ++ (distinct ++ last))
  · -- there is one target, which is stored at once
    obtain ⟨hone, hrange⟩ : targets.length ≤ 1 ∧ target.isRange = false := by
      simpa using hkeep
    have hsingle : (lhss.zip targets).zip rhss = [((lhs, target), .expr e)] :=
      eq_singleton_of_mem hmem (by simp only [List.length_zip]; omega)
    rw [hsingle] at hstores
    obtain ⟨b, t₁, ts, bs, us, hts, hnil, rfl, rfl⟩ := emits_mapM_cons.1 hstores
    obtain ⟨rfl, rfl, rfl⟩ := emits_pure.1 hnil
    obtain ⟨a, pre, kept, u₁, u₂, hlow, hpre, hkept, rfl, rfl⟩ := evalStore_asserts htarget he hts
    unfold keepValue at hkept
    rw [if_neg hkeep] at hkept
    obtain ⟨hb, rfl, -⟩ := emits_pure.1 hkept
    obtain ⟨-, rfl, rfl⟩ := emits_pure.1 hdistinct
    obtain ⟨_, _, stored, _, hstored, hdone, rfl⟩ := emits_bind.1 hlast
    obtain ⟨-, rfl, -⟩ := emits_pure.1 hdone
    simp only [hb] at hstored
    refine ⟨a, hlow, ?_⟩
    simpa using (store_moved htarget hrange hpre (natMessage e.span) hstored).append hfirst []

/-! ## Results and arguments -/

/-- A checked value that is moved through a fresh local, one of several. -/
theorem mapM_moves {α : Type} {c : Context} {s s' : Progress} {v : View} {e : Source.Expr}
    (he : e.typ = .int) {g : Source.Expr × Source.Binder → BodyM α}
    {f : Source.Expr × Source.Binder → IL.Expr → BodyM α}
    (hg : ∀ p, g p = (value v p.1 >>= fun x =>
      assertNat p.1 p.2.2 (Boxing.convert p.1.typ p.2.2 x) >>= fun _ =>
        f p (Boxing.convert p.1.typ p.2.2 x)))
    (hf : ∀ p x, Simple (f p x)) {ps : List (Source.Expr × Source.Binder)} {y : String}
    (hmem : (e, y, .nat) ∈ ps) (hmoves : ∀ x c s a ss s',
      (f (e, y, .nat) x).Emits c s a ss s' → ∃ z, ss = [.assign z x])
    {as : List α} {ss : List IL.Stmt} (h : (ps.mapM g).Emits c s as ss s') :
    ∃ a, LowersTo c v e a ∧ Moved a ss ∧ ∀ t ∈ ss, t.isSimple := by
  have hsimple : ∀ p, Simple (g p) := fun p => hg p ▸
    .bind (Simple.value v _) fun _ => .bind (Simple.assertNat _ _ _) fun _ => hf p _
  have hall := Writes.mapM hsimple h
  obtain ⟨before, after, t₁, a, ts, t₂, hts, -, rfl⟩ := h.mapM_mem hmem
  rw [hg] at hts
  obtain ⟨x, pre, rest, u₁, hlow, hpre, hrest, rfl⟩ := value_asserts he hts
  obtain ⟨z, rfl⟩ := hmoves _ _ _ _ _ _ hrest
  exact ⟨x, hlow, (moved_of_temp hpre _ x z).append (fun t ht => hall t (by simp [ht])) after, hall⟩

theorem assignOuts_moves {c : Context} {s s' : Progress} {b : Body} {v : View}
    {es : List Source.Expr} {e : Source.Expr} {y : String} (hmem : (e, y, .nat) ∈ es.zip b.outs)
    (he : e.typ = .int) {ss : List IL.Stmt} (h : (b.assignOuts v es).Emits c s () ss s') :
    ∃ a, LowersTo c v e a ∧ Moved a ss := by
  obtain ⟨values, s₁, first, last, hvalues, -, rfl⟩ := emits_bind.1 h
  obtain ⟨a, hlow, hmoved, -⟩ := mapM_moves (f := fun p x => temp p.2.2.sort x) he (fun _ => rfl)
    (fun _ _ => Simple.temp _ _) hmem (fun _ _ _ _ _ _ ht => temp_emits ht) hvalues
  exact ⟨a, hlow, by simpa using hmoved.append (List.forall_mem_nil _) last⟩

theorem passArg_emits {c : Context} {s s' : Progress} {srt : Srt} {a x : IL.Expr}
    {ss : List IL.Stmt} (h : (passArg srt a).Emits c s x ss s') : ∃ y, ss = [.assign y a] := by
  simp only [passArg, storeIn, BodyM.assign, emits_decl_bind, emits_add_bind, emits_pure] at h
  obtain ⟨n, s₁, -, _, s₂, -, us, ⟨-, rfl, -⟩, rfl⟩ := h
  exact ⟨_, rfl⟩

theorem Simple.passArg (srt : Srt) (a : IL.Expr) : Simple (ContractLowering.passArg srt a) :=
  of_writing fun _ => Writing.passArg writesOwn srt a

theorem passArgs_moves {c : Context} {s s' : Progress} {v : View} {params : List Source.Binder}
    {args : List Source.Expr} {e : Source.Expr} {y : String}
    (hmem : (e, y, .nat) ∈ args.zip params) (he : e.typ = .int)
    {bs : List (String × IL.Expr)} {ss : List IL.Stmt}
    (h : (passArgs v params args).Emits c s bs ss s') : ∃ a, LowersTo c v e a ∧ Moved a ss := by
  obtain ⟨a, hlow, hmoved, -⟩ := mapM_moves
    (f := fun p x => do return (p.2.1, ← passArg p.2.2.sort x)) he (fun _ => rfl)
    (fun _ _ => .bind (Simple.passArg _ _) fun _ => .pure _) hmem
    (fun _ _ _ _ _ _ ht => by
      obtain ⟨_, _, _, _, hpass, hpure, rfl⟩ := emits_bind.1 ht
      obtain ⟨-, rfl, -⟩ := emits_pure.1 hpure
      simpa using passArg_emits hpass) h
  exact ⟨a, hlow, hmoved⟩

theorem Simple.passThis (v : View) (callee : Method) (receiver : Option Source.Expr) :
    Simple (Body.passThis v callee receiver) :=
  of_writing fun _ => Writing.passThis writesOwn v callee receiver

theorem lowerCall_moves {c : Context} {s s' : Progress} {b : Body} {v : View} {span : Span}
    {m : Path} {callee : Method} (hm : c.method m = .ok callee) {receiver : Option Source.Expr}
    {args : List Source.Expr} {outs : List Lhs} {e : Source.Expr} {y : String}
    (hmem : (e, y, .nat) ∈ args.zip callee.ins) (he : e.typ = .int) {ss : List IL.Stmt}
    (h : (b.lowerCall v span m receiver args outs).Emits c s () ss s') :
    ∃ a, LowersTo c v e a ∧ Moved a ss := by
  rw [Body.lowerCall_eq] at h
  obtain ⟨c', s₀, hc', h'⟩ := emits_decl_bind.1 h
  obtain ⟨rfl, rfl⟩ := DeclM.gives_context.1 hc'
  obtain ⟨callee', hcallee, h₀⟩ := emits_expr_bind.1 h'
  obtain rfl : callee' = callee := Except.ok.inj (hcallee.symm.trans hm)
  obtain ⟨targets, s₁, first, _, htargets, h₁, rfl⟩ := emits_bind.1 h₀
  obtain ⟨this, s₂, second, _, hthis, h₂, rfl⟩ := emits_bind.1 h₁
  obtain ⟨rest, s₃, third, last, hrest, -, rfl⟩ := emits_bind.1 h₂
  obtain ⟨a, hlow, hmoved⟩ := passArgs_moves hmem he hrest
  have hbefore : ∀ t ∈ first ++ second, t.isSimple :=
    simple_append (Writes.mapM (Simple.ofLhs v) htargets) (Simple.passThis v _ receiver hthis)
  exact ⟨a, hlow, by simpa using hmoved.append hbefore last⟩

end ContractLowering
