import ContractLowering.Proofs.Lowering.ExprReturns
import ContractLowering.Proofs.Source.WellTyped

/-!
# Well-typed expressions are lowered

Lowering gives a result for every well-typed expression (`lowerExpr_total`): whatever it looks up
is declared, and every operation it meets is one that the types of the operands have.
-/

namespace ContractLowering

open IL Source

namespace ExprM

variable {α β : Type} {env : Env}

/-- A computation gives a value. -/
def Total (x : ExprM α) (env : Env) : Prop := ∃ a, x.Returns env a

theorem Returns.total {x : ExprM α} {a : α} (h : x.Returns env a) : x.Total env := ⟨a, h⟩

theorem Total.pure (a : α) : (Pure.pure a : ExprM α).Total env := ⟨a, rfl⟩

/-- A sequence gives a value if its second part does after each value of the first. -/
theorem Total.bind {x : ExprM α} {f : α → ExprM β} (hx : x.Total env)
    (hf : ∀ a, x.Returns env a → (f a).Total env) : (x >>= f).Total env := by
  obtain ⟨a, ha⟩ := hx
  obtain ⟨b, hb⟩ := hf a ha
  exact ⟨b, ha.bind hb⟩

/-- A sequence whose second part is a value. -/
theorem Total.map {x : ExprM α} (hx : x.Total env) (f : α → β) :
    (x >>= fun a => Pure.pure (f a)).Total env :=
  hx.bind fun a _ => .pure (f a)

theorem Total.mapM {f : α → ExprM β} {l : List α} (h : ∀ a ∈ l, (f a).Total env) :
    (l.mapM f).Total env := by
  induction l with
  | nil => exact .pure []
  | cons a l ih =>
    rw [List.mapM_cons]
    exact (h a (by simp)).bind fun _ _ => (ih fun a ha => h a (by simp [ha])).map _

end ExprM

section

variable {env : Env} {v : View} {a b c : IL.Expr} {t t₁ t₂ : Typ}

/-! ## Operators -/

theorem collectionBelow_total (proper : Bool) (ht : t.isCollection = true) :
    (collectionBelow proper t a b).Total env := by
  cases t with
  | set | multiset | seq => exact .pure _
  | _ => cases ht

theorem lowerCompare_total (op : IL.BinOp) (proper swapped : Bool) (t : Typ) :
    (lowerCompare op proper swapped t a b).Total env := by
  unfold lowerCompare
  split
  · split
    · exact collectionBelow_total proper ‹_›
    · exact collectionBelow_total proper ‹_›
  · exact .pure _

theorem lowerArith_total {op : Source.BinOp} {op' : MultiOp} (ht : op.IsArith t)
    (hop : op = .add → op' = .add) : (lowerArith op' t a b).Total env := by
  cases t with
  | seq =>
    obtain rfl := hop ht
    exact .pure _
  | _ => cases op' <;> exact .pure _

theorem lowerMem_total {elem : Typ} (ht : t.member? = some elem) :
    (lowerMem t a b).Total env := by
  cases t with
  | set | multiset | seq | map => exact .pure _
  | _ => cases ht

theorem lowerBinary_total {op : Source.BinOp} {result : Typ} (hop : op.Accepts t₁ t₂ result) :
    (lowerBinary op t₁ t₂ a b).Total env := by
  cases op with
  | lt | le | gt | ge => exact lowerCompare_total ..
  | add | sub | mul => exact lowerArith_total hop.1 (by simp)
  | mem =>
    obtain ⟨⟨elem, helem, -⟩, -⟩ := hop
    exact lowerMem_total helem
  | notMem =>
    obtain ⟨⟨elem, helem, -⟩, -⟩ := hop
    exact (lowerMem_total helem).map _
  | disjoint =>
    obtain ⟨⟨elem, rfl | rfl⟩, -⟩ := hop <;> exact .pure _
  | _ => exact .pure _

theorem lowerIndex_total {coll idx result : Typ} (h : coll.Indexes idx result) :
    (lowerIndex v coll idx result a b).Total env := by
  cases coll with
  | seq | array | map | multiset => exact .pure _
  | _ => cases h

theorem lowerUpdate_total {coll idx value : Typ} (h : coll.Updates idx value) :
    (lowerUpdate coll value a b c).Total env := by
  cases coll with
  | seq | map => exact .pure _
  | _ => cases h

theorem lowerCard_total (ht : t.member?.isSome) : (lowerCard t).Total env := by
  cases t with
  | set | multiset | seq | map => exact .pure _
  | _ => cases ht

/-! ## Where clauses -/

theorem clause_total (extended : Bool) (h : IL.Expr) (depth : Nat) (ht : t.Resolved env.context) :
    (WhereClause.clause extended h depth t a).Total env := by
  fun_induction WhereClause.clause extended h depth t a with
  | case1 | case2 | case3 | case4 | case7 => exact .pure _
  | case5 | case6 => exact ExprM.Total.map ⟨_, Heap.returns_dtypeIs.2 rfl⟩ _
  | case8 =>
    obtain ⟨d, hd⟩ := ht
    exact ((ExprM.returns_datatype.2 hd).total.map _).map _
  | case9 | case10 | case11 =>
    rename_i ih
    exact (ih ht).map _
  | case12 _ _ _ _ _ ihk =>
    rename_i ihv
    exact (ihk ht.1).bind fun _ _ => (ihv ht.2).map _

theorem bindersWhere_total (h : IL.Expr) {bs : List Source.Binder}
    (hbs : ∀ b ∈ bs, b.2.Resolved env.context) : (bindersWhere h bs).Total env :=
  ((ExprM.Total.mapM fun b hb => clause_total false h 0 (hbs b hb)).map _).map _

/-! ## Parts of expressions -/

theorem lowerExpr?_total {o : Option Source.Expr} (h : ∀ e ∈ o, (lowerExpr v e).Total env) :
    (lowerExpr? v o).Total env := by
  cases o with
  | none => rw [lowerExpr?]; exact .pure none
  | some e => rw [lowerExpr?]; exact (h e rfl).map _

theorem receiverArgs_total (owner : Option Path) {o : Option Source.Expr}
    (h : ∀ e ∈ o, (lowerExpr v e).Total env) : (receiverArgs v owner o).Total env := by
  cases owner with
  | none => exact .pure []
  | some p =>
    cases o with
    | none => rw [receiverArgs, lowerReceiver]; exact .pure _
    | some e => rw [receiverArgs, lowerReceiver]; exact (h e rfl).map _

theorem lowerArgs_total {es : List Source.Expr} (h : ∀ e ∈ es, (lowerExpr v e).Total env)
    (ps : List Source.Binder) : (lowerArgs v ps es).Total env := by
  induction es generalizing ps with
  | nil => rw [lowerArgs]; exact .pure []
  | cons e es ih =>
    cases ps with
    | nil => rw [lowerArgs]; exact .pure []
    | cons p ps =>
      rw [lowerArgs]
      exact (h e (by simp)).bind fun _ _ => (ih (fun d hd => h d (by simp [hd])) ps).map _

theorem lowerElements_total {es : List Source.Expr} (h : ∀ e ∈ es, (lowerExpr v e).Total env)
    (elem : Typ) (add : IL.Expr → IL.Expr → IL.Expr) (acc : IL.Expr) :
    (lowerElements v elem add acc es).Total env := by
  induction es generalizing acc with
  | nil => rw [lowerElements]; exact .pure acc
  | cons e es ih =>
    rw [lowerElements]
    exact (h e (by simp)).bind fun _ _ => ih (fun d hd => h d (by simp [hd])) _

theorem lowerEntries_total {kvs : List (Source.Expr × Source.Expr)}
    (hk : ∀ p ∈ kvs, (lowerExpr v p.1).Total env) (hv : ∀ p ∈ kvs, (lowerExpr v p.2).Total env)
    (key value : Typ) (acc : IL.Expr) : (lowerEntries v key value acc kvs).Total env := by
  induction kvs generalizing acc with
  | nil => rw [lowerEntries]; exact .pure acc
  | cons p kvs ih =>
    rw [lowerEntries]
    exact (hk p (by simp)).bind fun _ _ => (hv p (by simp)).bind fun _ _ =>
      ih (fun q hq => hk q (by simp [hq])) (fun q hq => hv q (by simp [hq])) _

theorem lowerBindings_total {bs : List (String × Source.Expr)}
    (h : ∀ p ∈ bs, (lowerExpr v p.2).Total env) : (lowerBindings v bs).Total env := by
  induction bs with
  | nil => rw [lowerBindings]; exact .pure []
  | cons p bs ih =>
    rw [lowerBindings]
    exact (h p (by simp)).bind fun _ _ => (ih fun q hq => h q (by simp [hq])).map _

theorem lowerTerms_total {es : List Source.Expr} (h : ∀ e ∈ es, (lowerExpr v e).Total env) :
    (lowerTerms v es).Total env := by
  induction es with
  | nil => rw [lowerTerms]; exact .pure []
  | cons e es ih =>
    rw [lowerTerms]
    exact (h e (by simp)).bind fun _ _ => (ih fun d hd => h d (by simp [hd])).map _

theorem lowerTriggers_total {ts : List (List Source.Expr)}
    (h : ∀ t ∈ ts, ∀ e ∈ t, (lowerExpr v e).Total env) : (lowerTriggers v ts).Total env := by
  induction ts with
  | nil => rw [lowerTriggers]; exact .pure []
  | cons t ts ih =>
    rw [lowerTriggers]
    exact (lowerTerms_total (h t (by simp))).bind fun _ _ =>
      (ih fun u hu => h u (by simp [hu])).map _

/-- The cascade of a match has an arm if there is one in the match. -/
theorem lowerArms_total {d : Datatype} (a : IL.Expr) (dt : Path) (result : Typ)
    {arms : List (Pattern × Source.Expr)}
    (hpatterns : ∀ p ∈ arms, ∃ ctor, d.ctor p.1.ctor = .ok ctor)
    (h : ∀ p ∈ arms, (lowerExpr v p.2).Total env) :
    ∃ o, (lowerArms v d dt a result arms).Returns env o ∧ (arms ≠ [] → o.isSome) := by
  induction arms with
  | nil => exact ⟨none, by rw [lowerArms]; rfl, fun hne => absurd rfl hne⟩
  | cons p arms ih =>
    obtain ⟨ctor, hctor⟩ := hpatterns p (by simp)
    obtain ⟨body, hbody⟩ := h p (by simp)
    obtain ⟨o, ho, -⟩ := ih (fun q hq => hpatterns q (by simp [hq])) fun q hq => h q (by simp [hq])
    obtain ⟨us, hus⟩ : (caseBindings d dt p.1 a).Total env :=
      ExprM.Total.map ⟨ctor, ExprM.returns_ofExcept.2 hctor⟩ _
    cases o with
    | none => exact ⟨_, by rw [lowerArms]; exact ho.bind (hus.bind (hbody.bind rfl)), fun _ => rfl⟩
    | some o =>
      exact ⟨_, by rw [lowerArms]; exact ho.bind (hus.bind (hbody.bind rfl)), fun _ => rfl⟩

theorem autoTriggers_total (bound : List String) (body : IL.Expr) :
    (autoTriggers bound body).Total env :=
  (ExprM.returns_options.2 rfl).total.map _

theorem setPredicate_total {i : Info} {bs : List Source.Binder} {t : Option Source.Expr}
    {elem : Typ} (htyp : i.typ = .set elem) (hterm : t = none → ∃ b, bs = [b])
    (ht : ∀ e ∈ t, (lowerExpr v e).Total env) : (setPredicate v i bs t a b).Total env := by
  unfold setPredicate
  split
  · exact .pure _
  · rename_i hother
    cases t with
    | none =>
      obtain ⟨x, rfl⟩ := hterm rfl
      exact absurd rfl (hother x rfl)
    | some e =>
      rw [htyp]
      exact (ExprM.Total.pure elem).bind fun _ _ => (ht e rfl).bind fun _ _ =>
        (autoTriggers_total _ _).map _

/-- Well-typed expressions are lowered in every view. -/
theorem lowerExpr_total {D : Discipline} {hasThis : Bool} {Γ : Typing} {e : Source.Expr}
    (he : WellTyped env.context D hasThis Γ e) (v : View) : (lowerExpr v e).Total env := by
  induction he generalizing v with
  | bool | int | null | var | this => rw [lowerExpr]; exact .pure _
  | field hfield _ _ _ ih =>
    rw [lowerExpr]
    exact (ExprM.returns_field.2 hfield).total.bind fun _ _ =>
      ExprM.Total.bind ⟨_, Heap.returns_fieldHandle.2 rfl⟩ fun _ _ => (ih v).map _
  | index htyp _ _ iha ihb =>
    rw [lowerExpr]
    exact (iha v).bind fun _ _ => (ihb v).bind fun _ _ => lowerIndex_total htyp
  | slice _ _ _ _ _ _ ih ihlo ihhi =>
    rw [lowerExpr]
    exact (ih v).bind fun _ _ => (lowerExpr?_total fun x hx => ihlo x hx v).bind fun _ _ =>
      (lowerExpr?_total fun x hx => ihhi x hx v).map _
  | update hcoll _ _ _ _ ihe ihk ihv =>
    rw [lowerExpr]
    exact (ihe v).bind fun _ _ => (ihk v).bind fun _ _ => (ihv v).bind fun _ _ =>
      lowerUpdate_total hcoll
  | arrayLength _ _ _ ih =>
    rw [lowerExpr]
    exact (ih v).bind fun _ _ => ⟨_, Heap.returns_arrayLength.2 rfl⟩
  | @display _ i kind _ elem hkind _ _ ih =>
    have helem : (elemTyp i.typ).Total env := by
      cases kind <;> (rw [hkind]; exact .pure elem)
    rw [lowerExpr]
    exact helem.bind fun _ _ => lowerElements_total (fun e he => ih e he v) _ _ _
  | mapDisplay htyp _ _ _ ihk ihv =>
    rw [lowerExpr, htyp]
    exact (ExprM.Total.pure _).bind fun _ _ =>
      lowerEntries_total (fun p hp => ihk p hp v) (fun p hp => ihv p hp v) _ _ _
  | ctor hd hctor _ _ _ ih =>
    rw [lowerExpr]
    exact (ExprM.returns_datatype.2 hd).total.bind fun d' hd' => by
      obtain rfl := (ExprM.returns_datatype.2 hd).unique hd'
      exact ExprM.Total.bind ⟨_, hctor⟩ fun _ _ => (lowerArgs_total (fun e he => ih e he v) _).map _
  | destruct hd hctor hfield _ _ _ ih =>
    rw [lowerExpr]
    exact ⟨_, (ExprM.returns_datatype.2 hd).bind
      (ExprM.Returns.bind hctor (ExprM.Returns.bind hfield ((ih v).choose_spec.bind rfl)))⟩
  | isCtor _ _ _ _ _ ih => rw [lowerExpr]; exact (ih v).map _
  | old _ _ ih => rw [lowerExpr]; exact ih v.old
  | fresh _ _ _ ih => rw [lowerExpr]; exact (ih v).map _
  | @unary _ _ op _ htyp _ ih =>
    cases op with
    | not | neg => rw [lowerExpr]; exact (ih v).map _
    | card => rw [lowerExpr]; exact (lowerCard_total htyp.1).bind fun _ _ => (ih v).map _
  | binary htyp _ _ iha ihb =>
    rw [lowerExpr]
    exact (iha v).bind fun _ _ => (ihb v).bind fun _ _ => lowerBinary_total htyp
  | @quant _ _ q bs r e ts _ _ hbs _ _ _ _ _ ihr ihe ihts =>
    obtain ⟨w, hw⟩ := bindersWhere_total v.heap fun b hb => (hbs b hb).2
    obtain ⟨range, hrange⟩ := lowerExpr?_total fun x hx => ihr x hx v
    obtain ⟨body, hbody⟩ := ihe v
    obtain ⟨chosen, hchosen⟩ : (chosenTriggers v (bs.map (·.1)) ts
        (quantMatrix q w range body)).Total env := by
      unfold chosenTriggers
      split
      · exact autoTriggers_total _ _
      · exact lowerTriggers_total fun t ht x hx => ihts t ht x hx v
    exact ⟨_, returns_lowerExpr_quant.2 ⟨w, hw, range, hrange, body, hbody, chosen, hchosen, rfl⟩⟩
  | setComp _ hbs htyp _ hterm _ _ _ ihr iht =>
    obtain ⟨w, hw⟩ := bindersWhere_total v.heap fun b hb => (hbs b hb).2
    obtain ⟨range, hrange⟩ := ihr v
    obtain ⟨p, hp⟩ := setPredicate_total (a := w) (b := range) htyp hterm fun x hx => iht x hx v
    exact ⟨_, returns_lowerExpr_setComp.2 ⟨w, hw, range, hrange, p, hp, rfl⟩⟩
  | mapComp hb htyp _ _ _ _ ihr iht =>
    rw [lowerExpr, htyp]
    exact (ExprM.Total.pure _).bind fun _ _ =>
      (bindersWhere_total v.heap (List.forall_mem_singleton.2 hb.2)).bind fun _ _ =>
      (ihr v).bind fun _ _ => (iht v).map _
  | letIn _ _ _ _ ihbs ihe =>
    rw [lowerExpr]
    exact (lowerBindings_total fun p hp => ihbs p hp v).bind fun _ _ => (ihe v).map _
  | ite _ _ _ _ _ ihe iha ihb =>
    rw [lowerExpr]
    exact (iha v).bind fun _ _ => (ihb v).bind fun _ _ => (ihe v).map _
  | @cases _ i _ _ dt ts d hd hvalue hne hpatterns _ _ _ _ ihe ihs =>
    obtain ⟨s, hs⟩ := ihe v
    obtain ⟨o, ho, hsome⟩ := lowerArms_total s dt i.typ
      (fun p hp => (hpatterns p hp).imp fun _ h => h.1) fun p hp => ihs p hp v
    obtain ⟨x, rfl⟩ := Option.isSome_iff_exists.1 (hsome hne)
    exact ⟨x, returns_lowerExpr_cases.2 ⟨s, hs, dt, returns_matchedDatatype.2 ⟨ts, hvalue⟩, d, hd,
      ho⟩⟩
  | @call _ _ f _ _ callee hf _ _ _ _ _ _ ihr ihes =>
    obtain ⟨layer, hlayer⟩ : (callLayer v f).Total env := callLayer_returns f
    obtain ⟨recv, hrecv⟩ := receiverArgs_total callee.owner fun x hx => ihr x hx v
    obtain ⟨rest, hrest⟩ := lowerArgs_total (fun e he => ihes e he v) callee.params
    exact ⟨_, returns_lowerExpr_call.2 ⟨callee, hf, layer, hlayer, recv, hrecv, rest, hrest, rfl⟩⟩

end

end ContractLowering
