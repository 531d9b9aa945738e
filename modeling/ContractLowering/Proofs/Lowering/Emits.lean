import ContractLowering.Lowering.BodyM
import ContractLowering.Proofs.Lowering.Returns

/-!
# What the lowering of a statement emits

`x.Gives c s a s'` says that a computation gives a value and leads from one state to another, and
`x.Emits c s a ss s'` that it also appends statements. A sequence gives and emits through its parts,
so a lowering that did not fail is taken apart by rewriting.
-/

namespace ContractLowering

open IL Source

namespace DeclM

instance : LawfulMonad DeclM :=
  LawfulMonad.mk' DeclM
    (fun x => by
      funext c s
      show seq x pure c s = x c s
      unfold seq
      rcases x c s with ⟨_ | a, s₁⟩ <;> rfl)
    (fun _ _ => rfl)
    (fun x f g => by
      funext c s
      show seq (seq x f) g c s = seq x (fun a => seq (f a) g) c s
      unfold seq
      rcases x c s with ⟨_ | a, s₁⟩ <;> rfl)

variable {α β : Type} {c : Context} {s s' : Progress}

/-- A computation gives a value and leads from one state to another. -/
def Gives (x : DeclM α) (c : Context) (s : Progress) (a : α) (s' : Progress) : Prop :=
  x c s = (.ok a, s')

@[simp] theorem gives_pure {a b : α} : (pure a : DeclM α).Gives c s b s' ↔ b = a ∧ s' = s := by
  constructor
  · intro h
    cases h
    exact ⟨rfl, rfl⟩
  · rintro ⟨rfl, rfl⟩
    rfl

@[simp] theorem gives_bind {x : DeclM α} {f : α → DeclM β} {b : β} :
    (x >>= f).Gives c s b s' ↔ ∃ a s₁, x.Gives c s a s₁ ∧ (f a).Gives c s₁ b s' := by
  show seq x f c s = _ ↔ _
  unfold seq Gives
  rcases x c s with ⟨_ | a, s₁⟩ <;> simp

/-- An expression is lowered in the environment of the state, and what it asks for is declared. -/
@[simp] theorem gives_ofExpr {x : ExprM α} {a : α} :
    (ofExpr x).Gives c s a s' ↔
      x.Returns (s.env c) a ∧ s' = (x (s.env c)).requests.foldl Progress.declare s := by
  unfold Gives ofExpr ExprM.Returns
  rcases x (s.env c) with ⟨rs, _ | b⟩ <;> simp [Except.mapError, eq_comm]

@[simp] theorem gives_context {c' : Context} :
    context.Gives c s c' s' ↔ c' = c ∧ s' = s := by
  simp [Gives, context, eq_comm]

@[simp] theorem gives_state {t : Progress} : state.Gives c s t s' ↔ t = s ∧ s' = s := by
  simp [Gives, state, eq_comm]

@[simp] theorem gives_reject {m : Message} {a : α} : ¬ (reject m : DeclM α).Gives c s a s' := by
  simp [Gives, reject]

end DeclM

namespace BodyM

theorem run_seq {α β : Type} (x : BodyM α) (f : α → BodyM β) :
    (seq x f).run = x.run >>= fun p => (f p.1).run >>= fun q => pure (q.1, p.2 ++ q.2) := rfl

theorem ext_run {α : Type} {x y : BodyM α} (h : x.run = y.run) : x = y := by
  cases x
  exact congrArg BodyM.mk h

instance : LawfulMonad BodyM :=
  LawfulMonad.mk' BodyM
    (fun x => ext_run (by
      show x.run >>= (fun p => pure (p.1, []) >>= fun q => pure (q.1, p.2 ++ q.2)) = x.run
      simp))
    (fun a f => ext_run (by
      show pure (a, []) >>= (fun p => (f p.1).run >>= fun q => pure (q.1, p.2 ++ q.2)) = (f a).run
      simp))
    (fun x f g => ext_run (by
      show (seq (seq x f) g).run = (seq x fun a => seq (f a) g).run
      simp [run_seq, bind_assoc, List.append_assoc]))

variable {α β : Type} {c : Context} {s s' : Progress} {ss : List IL.Stmt}

/-- A computation gives a value, appends statements and leads from one state to another. -/
def Emits (x : BodyM α) (c : Context) (s : Progress) (a : α) (ss : List IL.Stmt) (s' : Progress) :
    Prop :=
  x.run.Gives c s (a, ss) s'

@[simp] theorem emits_pure {a b : α} :
    (pure a : BodyM α).Emits c s b ss s' ↔ b = a ∧ ss = [] ∧ s' = s := by
  show (pure (a, []) : DeclM (α × List IL.Stmt)).Gives c s (b, ss) s' ↔ _
  simp [and_assoc]

/-- A sequence emits what its parts emit, one after the other. -/
@[simp] theorem emits_bind {x : BodyM α} {f : α → BodyM β} {b : β} :
    (x >>= f).Emits c s b ss s' ↔
      ∃ a s₁ ss₁ ss₂, x.Emits c s a ss₁ s₁ ∧ (f a).Emits c s₁ b ss₂ s' ∧ ss = ss₁ ++ ss₂ := by
  show (x.run >>= fun p => (f p.1).run >>= fun q => pure (q.1, p.2 ++ q.2)).Gives c s (b, ss) s' ↔ _
  simp only [DeclM.gives_bind, DeclM.gives_pure, Prod.exists, Prod.mk.injEq]
  constructor
  · rintro ⟨a, ss₁, s₁, hx, b', ss₂, s₂, hf, ⟨rfl, rfl⟩, rfl⟩
    exact ⟨a, s₁, ss₁, ss₂, hx, hf, rfl⟩
  · rintro ⟨a, s₁, ss₁, ss₂, hx, hf, rfl⟩
    exact ⟨a, ss₁, s₁, hx, b, ss₂, s', hf, ⟨rfl, rfl⟩, rfl⟩

@[simp] theorem emits_ofDecl {x : DeclM α} {a : α} :
    (ofDecl x).Emits c s a ss s' ↔ x.Gives c s a s' ∧ ss = [] := by
  show (x >>= fun a => pure (a, [])).Gives c s (a, ss) s' ↔ _
  simp only [DeclM.gives_bind, DeclM.gives_pure, Prod.mk.injEq]
  constructor
  · rintro ⟨a', s₁, hx, ⟨rfl, rfl⟩, rfl⟩
    exact ⟨hx, rfl⟩
  · rintro ⟨hx, rfl⟩
    exact ⟨a, s', hx, ⟨rfl, rfl⟩, rfl⟩

@[simp] theorem emits_add {ts : List IL.Stmt} {u : Unit} :
    (add ts).Emits c s u ss s' ↔ ss = ts ∧ s' = s := by
  show (pure ((), ts) : DeclM (Unit × List IL.Stmt)).Gives c s (u, ss) s' ↔ _
  simp

@[simp] theorem emits_inside {x : BodyM α} {p : α × List IL.Stmt} :
    (inside x).Emits c s p ss s' ↔ x.Emits c s p.1 p.2 s' ∧ ss = [] :=
  emits_ofDecl

@[simp] theorem emits_block {x : BodyM Unit} {ts : List IL.Stmt} :
    (block x).Emits c s ts ss s' ↔ x.Emits c s () ts s' ∧ ss = [] := by
  show (inside x >>= fun p => pure p.2).Emits c s ts ss s' ↔ _
  simp only [emits_bind, emits_inside, emits_pure, Prod.exists]
  constructor
  · rintro ⟨u, ts', s₁, ss₁, ss₂, ⟨hx, rfl⟩, ⟨rfl, rfl, rfl⟩, rfl⟩
    exact ⟨hx, rfl⟩
  · rintro ⟨hx, rfl⟩
    exact ⟨(), ts, s', [], [], ⟨hx, rfl⟩, ⟨rfl, rfl, rfl⟩, rfl⟩

/-- A step that lowers an expression appends nothing. -/
@[simp] theorem emits_expr_bind {x : ExprM α} {f : α → BodyM β} {b : β} :
    ((liftM x : BodyM α) >>= f).Emits c s b ss s' ↔
      ∃ a, x.Returns (s.env c) a ∧
        (f a).Emits c ((x (s.env c)).requests.foldl Progress.declare s) b ss s' := by
  show ((ofDecl (DeclM.ofExpr x)) >>= f).Emits c s b ss s' ↔ _
  simp only [emits_bind, emits_ofDecl, DeclM.gives_ofExpr]
  constructor
  · rintro ⟨a, s₁, _, ss₂, ⟨⟨ha, rfl⟩, rfl⟩, hf, rfl⟩
    exact ⟨a, ha, hf⟩
  · rintro ⟨a, ha, hf⟩
    exact ⟨a, _, [], ss, ⟨⟨ha, rfl⟩, rfl⟩, hf, rfl⟩

/-- A step that does not lower statements appends nothing. -/
@[simp] theorem emits_decl_bind {x : DeclM α} {f : α → BodyM β} {b : β} :
    ((liftM x : BodyM α) >>= f).Emits c s b ss s' ↔
      ∃ a s₁, x.Gives c s a s₁ ∧ (f a).Emits c s₁ b ss s' := by
  show (ofDecl x >>= f).Emits c s b ss s' ↔ _
  simp only [emits_bind, emits_ofDecl]
  constructor
  · rintro ⟨a, s₁, _, ss₂, ⟨ha, rfl⟩, hf, rfl⟩
    exact ⟨a, s₁, ha, hf⟩
  · rintro ⟨a, s₁, ha, hf⟩
    exact ⟨a, s₁, [], ss, ⟨ha, rfl⟩, hf, rfl⟩

@[simp] theorem emits_expr {x : ExprM α} {a : α} :
    (liftM x : BodyM α).Emits c s a ss s' ↔
      (x.Returns (s.env c) a ∧ s' = (x (s.env c)).requests.foldl Progress.declare s) ∧ ss = [] :=
  emits_ofDecl.trans (and_congr_left' DeclM.gives_ofExpr)

/-- Appended statements come before those of the rest. -/
@[simp] theorem emits_add_bind {ts : List IL.Stmt} {f : Unit → BodyM β} {b : β} :
    (add ts >>= f).Emits c s b ss s' ↔ ∃ us, (f ()).Emits c s b us s' ∧ ss = ts ++ us := by
  simp only [emits_bind, emits_add]
  constructor
  · rintro ⟨_, s₁, _, ss₂, ⟨rfl, rfl⟩, hf, rfl⟩
    exact ⟨ss₂, hf, rfl⟩
  · rintro ⟨us, hf, rfl⟩
    exact ⟨(), s, ts, us, ⟨rfl, rfl⟩, hf, rfl⟩

/-- A computation over a list emits for its first element and then for the others. -/
theorem emits_mapM_cons {f : α → BodyM β} {a : α} {l : List α} {bs : List β} :
    ((a :: l).mapM f).Emits c s bs ss s' ↔
      ∃ b s₁ ss₁ bs' ss₂, (f a).Emits c s b ss₁ s₁ ∧ (l.mapM f).Emits c s₁ bs' ss₂ s' ∧
        bs = b :: bs' ∧ ss = ss₁ ++ ss₂ := by
  rw [List.mapM_cons]
  simp only [emits_bind, emits_pure]
  constructor
  · rintro ⟨b, s₁, ss₁, _, hb, ⟨bs', s₂, ss₂, _, hbs, ⟨rfl, rfl, rfl⟩, rfl⟩, rfl⟩
    exact ⟨b, s₁, ss₁, bs', ss₂, hb, hbs, rfl, by simp⟩
  · rintro ⟨b, s₁, ss₁, bs', ss₂, hb, hbs, rfl, rfl⟩
    exact ⟨b, s₁, ss₁, ss₂, hb, ⟨bs', s', ss₂, [], hbs, ⟨rfl, rfl, rfl⟩, by simp⟩, rfl⟩

/-- What is emitted for an element stands in what is emitted for the list. -/
theorem Emits.mapM_mem {f : α → BodyM β} {l : List α} {bs : List β}
    (h : (l.mapM f).Emits c s bs ss s') {a : α} (ha : a ∈ l) :
    ∃ before after s₁ b ts s₂, (f a).Emits c s₁ b ts s₂ ∧ b ∈ bs ∧ ss = before ++ ts ++ after := by
  induction l generalizing s bs ss with
  | nil => simp at ha
  | cons a' l ih =>
    obtain ⟨b, s₁, ss₁, bs', ss₂, hb, hbs, rfl, rfl⟩ := emits_mapM_cons.1 h
    rcases List.mem_cons.1 ha with rfl | ha
    · exact ⟨[], ss₂, s, b, ss₁, s₁, hb, by simp, by simp⟩
    · obtain ⟨before, after, t₁, b', ts, t₂, hb', hmem, rfl⟩ := ih hbs ha
      exact ⟨ss₁ ++ before, after, t₁, b', ts, t₂, hb', by simp [hmem], by simp⟩

/-- The values of a computation over a list are related to its elements one by one. -/
theorem Emits.mapM_forall₂ {f : α → BodyM β} {R : α → β → Prop} {l : List α} {bs : List β}
    (h : (l.mapM f).Emits c s bs ss s')
    (hR : ∀ a s b ss s', (f a).Emits c s b ss s' → R a b) : List.Forall₂ R l bs := by
  induction l generalizing s bs ss with
  | nil =>
    obtain ⟨rfl, -⟩ := emits_pure.1 h
    exact .nil
  | cons a l ih =>
    obtain ⟨b, s₁, ss₁, bs', ss₂, hb, hbs, rfl, rfl⟩ := emits_mapM_cons.1 h
    exact .cons (hR _ _ _ _ _ hb) (ih hbs)

/-- A computation appends only statements of a kind. -/
def Writes (P : IL.Stmt → Prop) (x : BodyM α) : Prop :=
  ∀ ⦃c s a ss s'⦄, x.Emits c s a ss s' → ∀ t ∈ ss, P t

namespace Writes

variable {P : IL.Stmt → Prop}

theorem pure (a : α) : Writes P (Pure.pure a) := by
  intro c s b ss s' h
  obtain ⟨-, rfl, -⟩ := emits_pure.1 h
  simp

theorem bind {x : BodyM α} {f : α → BodyM β} (hx : Writes P x) (hf : ∀ a, Writes P (f a)) :
    Writes P (x >>= f) := by
  intro c s b ss s' h
  obtain ⟨a, s₁, ss₁, ss₂, hx', hf', rfl⟩ := emits_bind.1 h
  intro t ht
  rcases List.mem_append.1 ht with ht | ht
  · exact hx hx' t ht
  · exact hf a hf' t ht

theorem ofDecl (x : DeclM α) : Writes P (BodyM.ofDecl x) := by
  intro c s a ss s' h
  obtain ⟨-, rfl⟩ := emits_ofDecl.1 h
  simp

theorem add {ts : List IL.Stmt} (h : ∀ t ∈ ts, P t) : Writes P (BodyM.add ts) := by
  intro c s a ss s' hadd
  obtain ⟨rfl, -⟩ := emits_add.1 hadd
  exact h

theorem reject {m : Message} {f : α → BodyM β} :
    Writes P ((liftM (DeclM.reject m : DeclM α) : BodyM α) >>= f) := by
  intro c s b ss s' h
  obtain ⟨a, s₁, hreject, -⟩ := emits_decl_bind.1 h
  exact (DeclM.gives_reject hreject).elim

theorem mapM {f : α → BodyM β} {l : List α} (hf : ∀ a, Writes P (f a)) : Writes P (l.mapM f) := by
  induction l with
  | nil => exact pure _
  | cons a l ih =>
    rw [List.mapM_cons]
    exact bind (hf a) fun _ => bind ih fun _ => pure _

theorem forM {f : α → BodyM Unit} {l : List α} (hf : ∀ a, Writes P (f a)) :
    Writes P (l.forM f) := by
  induction l with
  | nil => exact pure _
  | cons a l ih => exact bind (hf a) fun _ => ih

end Writes

/-- The values of a computation have a property. -/
def Yields (P : α → Prop) (x : BodyM α) : Prop :=
  ∀ ⦃c s a ss s'⦄, x.Emits c s a ss s' → P a

theorem Yields.pure {P : α → Prop} {a : α} (h : P a) : Yields P (Pure.pure a) := by
  intro c s b ss s' hb
  obtain ⟨rfl, -⟩ := emits_pure.1 hb
  exact h

theorem Yields.bind {P : β → Prop} {x : BodyM α} {f : α → BodyM β} (hf : ∀ a, Yields P (f a)) :
    Yields P (x >>= f) := by
  intro c s b ss s' h
  obtain ⟨a, s₁, ss₁, ss₂, -, hb, -⟩ := emits_bind.1 h
  exact hf a hb

end BodyM

end ContractLowering
