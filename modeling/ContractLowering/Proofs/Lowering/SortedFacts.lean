import ContractLowering.Proofs.Lowering.RelatedFacts
import ContractLowering.Proofs.Lowering.SortedChecks

/-!
# Facts of calls are Boolean

The calls in a well-typed expression leave facts behind that they were made, each below the frames
that reach the call. All of them are Boolean (`WellTyped.facts_sorted`), whatever arguments are
passed: unlike what is asserted of a call, the fact takes them in the representations of their
parameters.
-/

namespace ContractLowering

open IL Source

/-- Formulas are Boolean wherever the names in scope have their sorts. -/
def AllBoolean (Δ : Vocabulary) (P : Sorts → Prop) (as : List IL.Expr) : Prop :=
  ∀ a ∈ as, ∀ G, P G → a.sort? Δ G = some .bool

/-- A computation gives Boolean formulas only. -/
def GivesBoolean (Δ : Vocabulary) (env : Env) (P : Sorts → Prop) (x : ExprM (List IL.Expr)) :
    Prop :=
  ∀ ⦃as⦄, x.Returns env as → AllBoolean Δ P as

section

variable {Δ : Vocabulary} {env : Env} {v : View} {hasThis : Bool} {Γ : Typing} {e : Source.Expr}
  {P Q : Sorts → Prop} {as bs : List IL.Expr}

theorem AllBoolean.append (has : AllBoolean Δ P as) (hbs : AllBoolean Δ P bs) :
    AllBoolean Δ P (as ++ bs) :=
  List.forall_mem_append.2 ⟨has, hbs⟩

/-- What is Boolean inside a frame is so outside. -/
theorem AllBoolean.under {auto : Bool} {fr : Frame} (has : AllBoolean Δ Q as)
    (hfr : Reaches Δ auto P [fr] Q) : AllBoolean Δ P (fr.under auto as) := by
  intro a ha
  obtain ⟨b, hb, rfl⟩ := List.mem_map.1 (List.mem_filter.1 ha).1
  exact hfr b (has b hb)

namespace GivesBoolean

variable {w x y z : ExprM (List IL.Expr)}

theorem nil : GivesBoolean Δ env P (pure []) := by
  intro as has
  rw [ExprM.returns_pure] at has
  simp [has, AllBoolean]

theorem append (hx : GivesBoolean Δ env P x) (hy : GivesBoolean Δ env P y) :
    GivesBoolean Δ env P (x >>= fun a => y >>= fun b => pure (a ++ b)) := by
  intro as has
  simp only [ExprM.returns_bind, ExprM.returns_pure] at has
  obtain ⟨a, ha, b, hb, rfl⟩ := has
  exact (hx ha).append (hy hb)

theorem append₃ (hx : GivesBoolean Δ env P x) (hy : GivesBoolean Δ env P y)
    (hz : GivesBoolean Δ env P z) :
    GivesBoolean Δ env P (x >>= fun a => y >>= fun b => z >>= fun c => pure (a ++ b ++ c)) := by
  intro as has
  simp only [ExprM.returns_bind, ExprM.returns_pure] at has
  obtain ⟨a, ha, b, hb, c, hc, rfl⟩ := has
  exact ((hx ha).append (hy hb)).append (hz hc)

theorem append₄ (hw : GivesBoolean Δ env P w) (hx : GivesBoolean Δ env P x)
    (hy : GivesBoolean Δ env P y) (hz : GivesBoolean Δ env P z) :
    GivesBoolean Δ env P (w >>= fun a => x >>= fun b => y >>= fun c => z >>= fun d =>
      pure (a ++ b ++ c ++ d)) := by
  intro as has
  simp only [ExprM.returns_bind, ExprM.returns_pure] at has
  obtain ⟨a, ha, b, hb, c, hc, d, hd, rfl⟩ := has
  exact (((hw ha).append (hx hb)).append (hy hc)).append (hz hd)

/-- The outermost operation of an expression that is no call. -/
theorem node (he : ∀ i f r es, e ≠ .call i f r es := by simp) :
    GivesBoolean Δ env P (collectNode .facts v e) := by
  rw [collectNode_facts he]
  exact nil

end GivesBoolean

theorem collect?_sorted {o : Option Source.Expr}
    (h : ∀ e ∈ o, GivesBoolean Δ env P (collect .facts v e)) :
    GivesBoolean Δ env P (collect? .facts v o) := by
  cases o with
  | none => exact .nil
  | some e => exact h e rfl

theorem collectList_sorted {es : List Source.Expr}
    (h : ∀ e ∈ es, GivesBoolean Δ env P (collect .facts v e)) :
    GivesBoolean Δ env P (collectList .facts v es) := by
  induction es with
  | nil => exact .nil
  | cons e es ih =>
    obtain ⟨he, hes⟩ := List.forall_mem_cons.1 h
    simp only [collectList]
    exact he.append (ih hes)

theorem collectEntries_sorted {kvs : List (Source.Expr × Source.Expr)}
    (hkeys : ∀ p ∈ kvs, GivesBoolean Δ env P (collect .facts v p.1))
    (hvalues : ∀ p ∈ kvs, GivesBoolean Δ env P (collect .facts v p.2)) :
    GivesBoolean Δ env P (collectEntries .facts v kvs) := by
  induction kvs with
  | nil => exact .nil
  | cons p kvs ih =>
    obtain ⟨hkey, hkeys⟩ := List.forall_mem_cons.1 hkeys
    obtain ⟨hvalue, hvalues⟩ := List.forall_mem_cons.1 hvalues
    simp only [collectEntries]
    exact hkey.append₃ hvalue (ih hkeys hvalues)

theorem collectBindings_sorted {bs : List (String × Source.Expr)}
    (h : ∀ p ∈ bs, GivesBoolean Δ env P (collect .facts v p.2)) :
    GivesBoolean Δ env P (collectBindings .facts v bs) := by
  induction bs with
  | nil => exact .nil
  | cons p bs ih =>
    obtain ⟨hp, hbs⟩ := List.forall_mem_cons.1 h
    simp only [collectBindings]
    exact hp.append (ih hbs)

/-! ## Frames -/

/-- The frame of bound variables of the source. -/
theorem Reaches.ofBinders (hS : Signed Δ env) {auto : Bool} {bs : List Source.Binder}
    (hnodup : (bs.map (·.1)).Nodup)
    (hbs : ∀ b ∈ bs, ¬ Reserved env v b.1 ∧ b.2.Resolved env.context) {fr : Frame}
    (hfr : (Frame.ofBinders v bs).Returns env fr) :
    Reaches Δ auto (Scope Δ env v hasThis Γ) [fr] (Scope Δ env v hasThis (Γ.bind bs)) := by
  simp only [Frame.ofBinders, ExprM.returns_bind, ExprM.returns_pure] at hfr
  obtain ⟨w, hw, rfl⟩ := hfr
  obtain ⟨w', hw', hws⟩ := bindersWhere_sorted v hasThis hS hbs
  obtain rfl := hw.unique hw'
  have hbind : ∀ G, Scope Δ env v hasThis Γ G →
      Scope Δ env v hasThis (Γ.bind bs) (G.bind (sortBinders bs)) :=
    fun G hG => hG.bind hS fun b hb => (hbs b hb).1
  exact Reaches.nil.forAll hbind fun G hG => hws (hbind G hG) (sorts_of_nodup hnodup)

/-- The facts of a condition and of what is evaluated where it holds. -/
theorem AllBoolean.ranged {auto : Bool} {r : Source.Expr} {x : IL.Expr}
    (hlowers : LowersSorted Δ env v hasThis Γ r) (hbool : r.typ.sort = .bool)
    (hx : (lowerExpr v r).Returns env x) (has : AllBoolean Δ (Scope Δ env v hasThis Γ) as)
    (hbs : AllBoolean Δ (Scope Δ env v hasThis Γ) bs) :
    AllBoolean Δ (Scope Δ env v hasThis Γ) (as ++ (Frame.guard x).under auto bs) := by
  obtain ⟨x', hx', hsorted⟩ := hlowers
  obtain rfl := hx.unique hx'
  exact has.append (hbs.under (Reaches.nil.guard fun G hG =>
    (hsorted G hG).trans (congrArg some hbool)))

/-- The facts of a call say that it was made. -/
theorem collectNode_call_sorted (hS : Signed Δ env) {D : Discipline} {i : Info} {f : Path}
    {r : Option Source.Expr} {es : List Source.Expr} {callee : Function}
    (hf : env.context.function f = .ok callee)
    (hthis : callee.owner.isSome → r = none → hasThis = true)
    (hrecv : ∀ x ∈ r, x.typ.sort = Prelude.refSort) (hargs : D.Passes es callee.params)
    (hr : ∀ x ∈ r, LowersSorted Δ env v hasThis Γ x)
    (hes : ∀ e ∈ es, LowersSorted Δ env v hasThis Γ e) :
    GivesBoolean Δ env (Scope Δ env v hasThis Γ) (collectNode .facts v (.call i f r es)) := by
  intro as has
  obtain ⟨us, hus, rfl⟩ := returns_collectNode_call.1 has
  obtain ⟨callee', hf', recv', hrecv', rest', hrest', rfl⟩ := returns_lowerCallArgs.1 hus
  obtain rfl : callee' = callee := Except.ok.inj (hf'.symm.trans hf)
  obtain ⟨recv, hrs, hrecvs⟩ := receiverArgs_sorted callee'.owner hr hrecv hthis
  obtain ⟨rest, has, hass⟩ := lowerArgs_sorted hS.covers.operations hes hargs
  obtain rfl := hrecv'.unique hrs
  obtain rfl := hrest'.unique has
  refine List.forall_mem_singleton.2 fun G hG => ?_
  have hdecl := hS.covers.functions f callee' hf (.canCall, .bool) (by simp [Function.layers])
  exact Expr.sort?_app hdecl (callArgs_sorted hrecvs hass hG)

/-! ## Expressions -/

/-- The facts of the calls in a well-typed expression are Boolean, if no variable it binds has a
reserved name. -/
theorem Source.WellTyped.facts_sorted (hS : Signed Δ env) {D : Discipline}
    (he : WellTyped env.context D hasThis Γ e) (hD : ∀ x, D.binder x → ¬ Reserved env v x) :
    GivesBoolean Δ env (Scope Δ env v hasThis Γ) (collect .facts v e) := by
  induction he generalizing v with
  | bool | int | null | var | this =>
    simp only [collect]
    exact .nil
  | field _ _ _ _ ih | arrayLength _ _ _ ih | destruct _ _ _ _ _ _ ih =>
    simp only [collect]
    exact (ih hD).append .node
  | isCtor _ _ _ _ _ ih | fresh _ _ _ ih | unary _ _ ih =>
    simp only [collect]
    exact ih hD
  | old _ _ ih =>
    simp only [collect]
    exact fun as has a ha G hG => ih (fun x hx hr => hD x hx hr.of_old) has a ha G hG.old
  | index _ _ _ iha ihb =>
    simp only [collect]
    exact (iha hD).append₃ (ihb hD) .node
  | slice _ _ _ _ _ _ ih ihlo ihhi =>
    simp only [collect]
    exact (ih hD).append₄ (collect?_sorted fun x hx => ihlo x hx hD)
      (collect?_sorted fun x hx => ihhi x hx hD) .node
  | update _ _ _ _ _ iha ihb ihc =>
    simp only [collect]
    exact (iha hD).append₄ (ihb hD) (ihc hD) .node
  | display _ _ _ ih =>
    simp only [collect]
    exact collectList_sorted fun x hx => ih x hx hD
  | mapDisplay _ _ _ _ ihk ihv =>
    simp only [collect]
    exact collectEntries_sorted (fun p hp => ihk p hp hD) fun p hp => ihv p hp hD
  | ctor _ _ _ _ _ ih =>
    simp only [collect]
    exact (collectList_sorted fun x hx => ih x hx hD).append .node
  | @binary Γ i op a b htyp ha hb iha ihb =>
    cases hop : guardOfFirst? op with
    | none =>
      simp only [collect, hop]
      exact (iha hD).append₃ (ihb hD) .node
    | some guard =>
      intro as has
      simp only [collect, hop, ExprM.returns_bind, ExprM.returns_options, ExprM.returns_pure,
        exists_eq_left] at has
      obtain ⟨x, hx, first, hfirst, second, hsecond, rfl⟩ := has
      obtain ⟨x', hx', hsorted⟩ := lowerExpr_sorted hS ha hD
      obtain rfl := hx.unique hx'
      refine (iha hD hfirst).append ((ihb hD hsecond).under (Reaches.nil.guard fun G hG => ?_))
      have hsort := hsorted G hG
      cases op <;> simp only [guardOfFirst?, Option.some.injEq, reduceCtorEq] at hop <;> subst hop
      · exact hsort.trans (congrArg some htyp.1)
      · exact Expr.sort?_neg (hsort.trans (congrArg some htyp.1))
      · exact hsort.trans (congrArg some htyp.1)
  | @quant Γ i q bs r e ts ind hnodup hbs _ hbool hr _ _ ihr ihe _ =>
    have hbs := fun b hb => (hbs b hb).imp_left (hD _)
    intro as has
    cases r with
    | none =>
      simp only [collect, ExprM.returns_bind, ExprM.returns_options, ExprM.returns_pure,
        exists_eq_left] at has
      obtain ⟨inner, hinner, fr, hfr, rfl⟩ := has
      exact (ihe hD hinner).under (.ofBinders hS hnodup hbs hfr)
    | some r =>
      simp only [collect, ExprM.returns_bind, ExprM.returns_options, ExprM.returns_pure,
        exists_eq_left] at has
      obtain ⟨first, hfirst, x, hx, rest, hrest, fr, hfr, rfl⟩ := has
      exact (AllBoolean.ranged (lowerExpr_sorted hS (hr r rfl) hD) (hbool r (.inl rfl)) hx
        (ihr r rfl hD hfirst) (ihe hD hrest)).under (.ofBinders hS hnodup hbs hfr)
  | @setComp Γ i bs r t elem hnodup hbs _ hbool _ _ hr _ ihr iht =>
    have hbs := fun b hb => (hbs b hb).imp_left (hD _)
    intro as has
    cases t with
    | none =>
      simp only [collect, ExprM.returns_bind, ExprM.returns_options, ExprM.returns_pure,
        exists_eq_left] at has
      obtain ⟨first, hfirst, fr, hfr, rfl⟩ := has
      exact (ihr hD hfirst).under (.ofBinders hS hnodup hbs hfr)
    | some t =>
      simp only [collect, ExprM.returns_bind, ExprM.returns_options, ExprM.returns_pure,
        exists_eq_left] at has
      obtain ⟨first, hfirst, x, hx, rest, hrest, fr, hfr, rfl⟩ := has
      exact (AllBoolean.ranged (lowerExpr_sorted hS hr hD) hbool hx (ihr hD hfirst)
        (iht t rfl hD hrest)).under (.ofBinders hS hnodup hbs hfr)
  | @mapComp Γ i b r t key value hb _ hbool _ hr _ ihr iht =>
    intro as has
    simp only [collect, ExprM.returns_bind, ExprM.returns_options, ExprM.returns_pure,
      exists_eq_left] at has
    obtain ⟨first, hfirst, x, hx, rest, hrest, fr, hfr, rfl⟩ := has
    exact (AllBoolean.ranged (lowerExpr_sorted hS hr hD) hbool hx (ihr hD hfirst)
      (iht hD hrest)).under (.ofBinders hS (by simp)
        (List.forall_mem_singleton.2 (hb.imp_left (hD _))) hfr)
  | @letIn Γ i bs e hnames _ hbs _ ihbs ihe =>
    have hbound : ∀ b ∈ bs.map fun p => (p.1, p.2.typ), ¬ Reserved env v b.1 :=
      List.forall_mem_map.2 fun p hp => hD _ (hnames p hp)
    intro as has
    simp only [collect, ExprM.returns_bind, ExprM.returns_options, ExprM.returns_pure,
      exists_eq_left] at has
    obtain ⟨first, hfirst, us, hus, rest, hrest, rfl⟩ := has
    obtain ⟨us', hus', hsorted⟩ :=
      lowerBindings_sorted fun p hp => lowerExpr_sorted hS (hbs p hp) hD
    obtain rfl := hus.unique hus'
    exact (collectBindings_sorted (fun p hp => ihbs p hp hD) hfirst).append
      ((ihe hD hrest).under (Reaches.nil.bind hsorted fun G hG => hG.bind hS hbound))
  | @ite Γ i c a b hbool _ hc _ _ ihc iha ihb =>
    intro as has
    simp only [collect, ExprM.returns_bind, ExprM.returns_options, ExprM.returns_pure,
      exists_eq_left] at has
    obtain ⟨x, hx, first, hfirst, thn, hthn, els, hels, rfl⟩ := has
    have hlowers := lowerExpr_sorted hS hc hD
    refine (AllBoolean.ranged hlowers hbool hx (ihc hD hfirst) (iha hD hthn)).append
      ((ihb hD hels).under (Reaches.nil.guard fun G hG => Expr.sort?_neg ?_))
    obtain ⟨x', hx', hsorted⟩ := hlowers
    obtain rfl := hx.unique hx'
    exact (hsorted G hG).trans (congrArg some hbool)
  | @cases Γ i e arms dt ts d hd hvalue _ hpatterns hnames _ he _ ihe iharms =>
    intro as has
    obtain ⟨dt', hdt, x, hx, d', hd', first, hfirst, _, ⟨cs, hcs, rfl⟩, rfl⟩ :=
      returns_collect_cases.1 has
    obtain rfl := hdt.unique (returns_matchedDatatype.2 ⟨ts, hvalue⟩)
    obtain rfl : d' = d := Except.ok.inj (hd'.symm.trans hd)
    obtain ⟨x', hx', hsorted⟩ := lowerExpr_sorted hS he hD
    obtain rfl := hx.unique hx'
    have hvalues : ∀ G, Scope Δ env v hasThis Γ G → x.sort? Δ G = some Prelude.datatypeSort :=
      fun G hG => (hsorted G hG).trans (by rw [hvalue]; rfl)
    refine (ihe hD hfirst).append fun a ha => ?_
    obtain ⟨c, hc, ha⟩ := List.mem_flatten.1 ha
    obtain ⟨k, hk, bs, hbs, rfl⟩ := exists_of_forall₂ hcs hc
    refine AllBoolean.under ?_ (Reaches.nil.guard fun G hG =>
      WhereClause.sort?_isCtor hS hd hk (hvalues G hG)) a ha
    cases hfind : arms.find? (·.1.ctor == k.name) with
    | none =>
      rw [hfind] at hbs
      rw [show bs = [] from hbs]
      exact List.forall_mem_nil _
    | some p =>
      rw [hfind] at hbs
      obtain ⟨us, hus, cs', hcs', rfl⟩ := hbs
      have hp := List.mem_of_find?_eq_some hfind
      obtain ⟨ctor, hctor, hfit⟩ := hpatterns p hp
      obtain ⟨us', hus', hbindings⟩ := caseBindings_sorted hS hd hctor hfit
      obtain rfl := hus.unique hus'
      exact (iharms p hp hD hcs').under (Reaches.nil.bind (fun G hG => hbindings G (hvalues G hG))
        fun G hG => hG.bind hS fun b hb => hD _ (hnames p hp b hb))
  | call hf hthis hrecv hargs _ hr hes ihr ihes =>
    simp only [collect]
    exact (collect?_sorted fun x hx => ihr x hx hD).append₃
      (collectList_sorted fun x hx => ihes x hx hD)
      (collectNode_call_sorted hS hf hthis hrecv hargs
        (fun x hx => lowerExpr_sorted hS (hr x hx) hD)
        fun x hx => lowerExpr_sorted hS (hes x hx) hD)

end

end ContractLowering
