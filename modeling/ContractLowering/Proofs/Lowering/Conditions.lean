import ContractLowering.Proofs.Lowering.Definedness

/-!
# Checks are conditions

Whatever an expression is checked against, its checks only assert and assume (`check_conditions`).
-/

namespace ContractLowering

open IL Source

namespace ExprM

variable {α β : Type} {P Q : α → Prop}

/-- What a computation returns has a property. -/
def Ensures (x : ExprM α) (P : α → Prop) : Prop := ∀ env a, x.Returns env a → P a

theorem Ensures.pure {a : α} (h : P a) : (Pure.pure a : ExprM α).Ensures P := by
  intro env b hb
  rwa [returns_pure.1 hb]

theorem Ensures.bind {x : ExprM α} {f : α → ExprM β} {R : β → Prop} (hx : x.Ensures P)
    (hf : ∀ a, P a → (f a).Ensures R) : (x >>= f).Ensures R := by
  intro env b hb
  obtain ⟨a, ha, hb⟩ := returns_bind.1 hb
  exact hf a (hx env a ha) env b hb

theorem Ensures.after {x : ExprM α} {f : α → ExprM β} {R : β → Prop}
    (hf : ∀ a, (f a).Ensures R) : (x >>= f).Ensures R :=
  .bind (P := fun _ => True) (fun _ _ _ => trivial) fun a _ => hf a

theorem Ensures.mapM {f : α → ExprM β} {R : β → Prop} {l : List α}
    (hf : ∀ a ∈ l, (f a).Ensures R) : (l.mapM f).Ensures fun bs => ∀ b ∈ bs, R b := by
  intro env bs hbs
  induction ExprM.returns_mapM.1 hbs with
  | nil => simp
  | cons hb _ ih =>
    obtain ⟨ha, hl⟩ := List.forall_mem_cons.1 hf
    exact List.forall_mem_cons.2 ⟨ha env _ hb, ih hl (ExprM.returns_mapM.2 ‹_›)⟩

end ExprM

/-- Statements that only assert and assume. -/
def IL.Stmt.Conditions (ss : List IL.Stmt) : Prop := ∀ t ∈ ss, t.isCondition = true

section

open IL.Stmt (Conditions)

variable {v : View} {limits : Limits} {frames : List Frame} {e : Source.Expr}

theorem conditions_append {a b : List IL.Stmt} (ha : Conditions a) (hb : Conditions b) :
    Conditions (a ++ b) := List.forall_mem_append.2 ⟨ha, hb⟩

theorem conditions_flatten {bs : List (List IL.Stmt)} (h : ∀ b ∈ bs, Conditions b) :
    Conditions bs.flatten := fun t ht => by
  obtain ⟨b, hb, ht⟩ := List.mem_flatten.1 ht
  exact h b hb t ht

theorem conditions_assertUnder (auto : Bool) (o : Obligation) :
    Conditions (assertUnder auto frames o) := by
  unfold assertUnder
  dsimp only
  split <;> simp [Conditions, IL.Stmt.isCondition]

theorem conditions_assumeUnder (auto : Bool) (a : IL.Expr) :
    Conditions (assumeUnder auto frames a) := by
  unfold assumeUnder
  dsimp only
  split <;> simp [Conditions, IL.Stmt.isCondition]

theorem checkNode_conditions : (checkNode v limits frames e).Ensures Conditions :=
  .after fun _ => .after fun os => .after fun fact => .pure (conditions_append
    (fun t ht => by
      obtain ⟨o, -, ht⟩ := List.mem_flatMap.1 ht
      exact conditions_assertUnder _ o t ht)
    (fun t ht => by
      obtain ⟨a, -, ht⟩ := List.mem_flatMap.1 ht
      exact conditions_assumeUnder _ a t ht))

/-- Whatever is checked against and under whatever frames, an expression is checked by
conditions. -/
def ChecksByConditions (e : Source.Expr) : Prop :=
  ∀ v limits frames, (check v limits frames e).Ensures Conditions

theorem check?_conditions {o : Option Source.Expr} (h : ∀ e ∈ o, ChecksByConditions e) :
    (check? v limits frames o).Ensures Conditions := by
  cases o with
  | none => exact .pure (List.forall_mem_nil _)
  | some e => exact h e rfl v limits frames

theorem checkList_conditions {es : List Source.Expr} (h : ∀ e ∈ es, ChecksByConditions e) :
    (checkList v limits frames es).Ensures Conditions := by
  induction es with
  | nil => exact .pure (List.forall_mem_nil _)
  | cons e es ih =>
    obtain ⟨he, hes⟩ := List.forall_mem_cons.1 h
    exact (he v limits frames).bind fun _ hfirst => (ih hes).bind fun _ hrest =>
      .pure (conditions_append hfirst hrest)

theorem checkEntries_conditions {kvs : List (Source.Expr × Source.Expr)}
    (h : ∀ p ∈ kvs, ChecksByConditions p.1 ∧ ChecksByConditions p.2) :
    (checkEntries v limits frames kvs).Ensures Conditions := by
  induction kvs with
  | nil => exact .pure (List.forall_mem_nil _)
  | cons p kvs ih =>
    obtain ⟨⟨hkey, hvalue⟩, hrest⟩ := List.forall_mem_cons.1 h
    exact (hkey v limits frames).bind fun _ hk => (hvalue v limits frames).bind fun _ hv =>
      (ih hrest).bind fun _ hs => .pure (conditions_append (conditions_append hk hv) hs)

theorem checkBindings_conditions {bs : List (String × Source.Expr)}
    (h : ∀ p ∈ bs, ChecksByConditions p.2) :
    (checkBindings v limits frames bs).Ensures Conditions := by
  induction bs with
  | nil => exact .pure (List.forall_mem_nil _)
  | cons p bs ih =>
    obtain ⟨hp, hbs⟩ := List.forall_mem_cons.1 h
    exact (hp v limits frames).bind fun _ hfirst => (ih hbs).bind fun _ hrest =>
      .pure (conditions_append hfirst hrest)

/-- An operand and then the operation. -/
theorem conditions_then {x : ExprM (List IL.Stmt)} {y : ExprM (List IL.Stmt)}
    (hx : x.Ensures Conditions) (hy : y.Ensures Conditions) :
    (x >>= fun a => y >>= fun b => pure (a ++ b)).Ensures Conditions :=
  hx.bind fun _ ha => hy.bind fun _ hb => .pure (conditions_append ha hb)

theorem check_conditions (e : Source.Expr) : ChecksByConditions e := by
  induction e using Source.Expr.recData with
  | bool | int | null | var | this => exact fun _ _ _ => .pure (List.forall_mem_nil _)
  | field i e f ih => exact fun v l fs => conditions_then (ih v l fs) checkNode_conditions
  | arrayLength i e ih => exact fun v l fs => conditions_then (ih v l fs) checkNode_conditions
  | destruct i e d c f ih => exact fun v l fs => conditions_then (ih v l fs) checkNode_conditions
  | isCtor i e d c ih => exact fun v l fs => ih v l fs
  | fresh i e ih => exact fun v l fs => ih v l fs
  | unary i op e ih => exact fun v l fs => ih v l fs
  | old i e ih => exact fun v l fs => ih v.old l fs
  | index i a b iha ihb =>
    exact fun v l fs => (iha v l fs).bind fun _ ha => (ihb v l fs).bind fun _ hb =>
      checkNode_conditions.bind fun _ hn =>
        .pure (conditions_append (conditions_append ha hb) hn)
  | slice i e lo hi ih ihlo ihhi =>
    exact fun v l fs => (ih v l fs).bind fun _ he => (check?_conditions ihlo).bind fun _ hlo =>
      (check?_conditions ihhi).bind fun _ hhi => checkNode_conditions.bind fun _ hn =>
        .pure (conditions_append (conditions_append (conditions_append he hlo) hhi) hn)
  | update i a b c iha ihb ihc =>
    exact fun v l fs => (iha v l fs).bind fun _ ha => (ihb v l fs).bind fun _ hb =>
      (ihc v l fs).bind fun _ hc => checkNode_conditions.bind fun _ hn =>
        .pure (conditions_append (conditions_append (conditions_append ha hb) hc) hn)
  | display i kind es ih => exact fun v l fs => checkList_conditions ih
  | mapDisplay i kvs ih => exact fun v l fs => checkEntries_conditions ih
  | ctor i d c es ih =>
    exact fun v l fs => conditions_then (checkList_conditions ih) checkNode_conditions
  | binary i op a b iha ihb =>
    intro v l fs
    rw [check]
    refine (iha v l fs).bind fun _ ha => ?_
    split
    · exact .after fun _ => (ihb v l _).bind fun _ hb => .pure (conditions_append ha hb)
    · exact (ihb v l fs).bind fun _ hb => checkNode_conditions.bind fun _ hn =>
        .pure (conditions_append (conditions_append ha hb) hn)
  | quant i q bs r b ts ind ihr ihb =>
    intro v l fs
    rw [check]
    refine .after fun _ => ?_
    cases r with
    | none => exact ihb v l _
    | some r =>
      exact (ihr r rfl v l _).bind fun _ hr => .after fun _ => (ihb v l _).bind fun _ hb =>
        .pure (conditions_append hr hb)
  | setComp i bs r t ihr iht =>
    intro v l fs
    rw [check]
    refine .after fun _ => (ihr v l _).bind fun _ hr => ?_
    cases t with
    | none => exact .pure hr
    | some t =>
      exact .after fun _ => (iht t rfl v l _).bind fun _ ht => .pure (conditions_append hr ht)
  | mapComp i b r t ihr iht =>
    exact fun v l fs => .after fun _ => (ihr v l _).bind fun _ hr => .after fun _ =>
      (iht v l _).bind fun _ ht => .pure (conditions_append hr ht)
  | letIn i bs b ihbs ihb =>
    exact fun v l fs => (checkBindings_conditions ihbs).bind fun _ hbs => .after fun _ =>
      (ihb v l _).bind fun _ hb => .pure (conditions_append hbs hb)
  | ite i c a b ihc iha ihb =>
    exact fun v l fs => (ihc v l fs).bind fun _ hc => .after fun _ => (iha v l _).bind fun _ ha =>
      (ihb v l _).bind fun _ hb => .pure (conditions_append (conditions_append hc ha) hb)
  | cases i e arms ihe iharms =>
    intro v l fs
    rw [check]
    refine (ihe v l fs).bind fun _ he => .after fun dt => .after fun s => .after fun d =>
      .after fun _ => (ExprM.Ensures.mapM (R := Conditions) fun c _ => ?_).bind fun _ hs =>
        .pure (conditions_append he (conditions_flatten hs))
    split
    · exact .pure (conditions_assertUnder _ _)
    · rename_i p body hfind
      rw [checkArms_eq] at hfind
      obtain ⟨q, hq, heq⟩ := List.mem_map.1 (List.mem_of_find?_eq_some hfind)
      obtain ⟨rfl, rfl⟩ := Prod.mk.inj heq
      exact .after fun _ => iharms q hq v l _
  | call i f r es ihr ihes =>
    exact fun v l fs => (check?_conditions ihr).bind fun _ hr => (checkList_conditions ihes).bind
      fun _ hes => checkNode_conditions.bind fun _ hn =>
        .pure (conditions_append (conditions_append hr hes) hn)

end

end ContractLowering
