import ContractLowering.Proofs.Lowering.Definedness
import ContractLowering.Proofs.Lowering.SortedObligations

/-!
# Conditions of definedness are Boolean

Whatever `check` asserts or assumes of a well-typed expression is Boolean (`check_sorted`). Each
condition stands below the frames that reach its operation. Inside them the names of the enclosing
member's limits are still in scope, as long as no frame hides them (`Inside.bind`).
-/

namespace ContractLowering

open IL Source

/-! ## Frames -/

/-- What is Boolean inside frames is Boolean outside of them when it is wrapped. -/
def Reaches (Δ : Vocabulary) (auto : Bool) (P : Sorts → Prop) (frames : List Frame)
    (Q : Sorts → Prop) : Prop :=
  ∀ cond : IL.Expr, (∀ G, Q G → cond.sort? Δ G = some .bool) →
    ∀ G, P G → (Frame.wrapAll auto frames cond).sort? Δ G = some .bool

namespace Reaches

variable {Δ : Vocabulary} {auto : Bool} {P Q R : Sorts → Prop} {frames : List Frame}

theorem nil : Reaches Δ auto P [] P := fun _ h => h

theorem guard (h : Reaches Δ auto P frames Q) {c : IL.Expr}
    (hc : ∀ G, Q G → c.sort? Δ G = some .bool) : Reaches Δ auto P (.guard c :: frames) Q :=
  fun _ hcond => h _ fun G hG => Expr.sort?_imp (hc G hG) (hcond G hG)

theorem bind (h : Reaches Δ auto P frames Q) {bs : List (String × IL.Expr)} {ss : List IL.Binder}
    (hbs : ∀ G, Q G → List.Forall₂ (fun b s => b.1 = s.1 ∧ b.2.sort? Δ G = some s.2) bs ss)
    (hR : ∀ G : Sorts, Q G → R (G.bind ss)) : Reaches Δ auto P (.bind bs :: frames) R := by
  intro cond hcond
  refine h _ fun G hG => ?_
  rw [Frame.wrap]
  split
  · rename_i htrue
    rw [IL.Expr.isTrue_iff.1 htrue]
    rfl
  · exact Expr.sort?_lets (hbs G hG) (hcond _ (hR G hG))

theorem forAll (h : Reaches Δ auto P frames Q) {bs : List IL.Binder} {wheres : IL.Expr}
    (hR : ∀ G : Sorts, Q G → R (G.bind bs))
    (hwheres : ∀ G : Sorts, Q G → wheres.sort? Δ (G.bind bs) = some .bool) :
    Reaches Δ auto P (.forAll bs wheres :: frames) R := by
  intro cond hcond
  refine h _ fun G hG => ?_
  unfold Frame.wrap
  simp only
  split
  · rename_i htrue
    rw [IL.Expr.isTrue_iff.1 htrue]
    rfl
  · have hmatrix := Expr.sort?_imp (hwheres G hG) (hcond _ (hR G hG))
    refine Expr.sort?_all hmatrix ?_
    split
    · exact Expr.select_sorted (by simp [hmatrix])
    · simp

end Reaches

/-- A statement is an assertion or an assumption of a Boolean condition. -/
def IL.Stmt.BooleanCondition (Δ : Vocabulary) (P : Sorts → Prop) (s : IL.Stmt) : Prop :=
  ∃ c, (s = .assume c ∨ ∃ m, s = .assert m c) ∧ ∀ G, P G → c.sort? Δ G = some .bool

/-- A computation gives assertions and assumptions of Boolean conditions. -/
def ChecksSorted (Δ : Vocabulary) (env : Env) (P : Sorts → Prop) (x : ExprM (List IL.Stmt)) :
    Prop :=
  ∃ ss, x.Returns env ss ∧ ∀ s ∈ ss, s.BooleanCondition Δ P

section

variable {Δ : Vocabulary} {env : Env} {v v₀ : View} {hasThis : Bool} {Γ Γ₀ : Typing}
  {limits : Limits} {e : Source.Expr} {P : Sorts → Prop} {frames : List Frame}

theorem ChecksSorted.nil : ChecksSorted Δ env P (pure []) := ⟨[], rfl, by simp⟩

theorem ChecksSorted.append {x y : ExprM (List IL.Stmt)} (hx : ChecksSorted Δ env P x)
    (hy : ChecksSorted Δ env P y) :
    ChecksSorted Δ env P (x >>= fun a => y >>= fun b => pure (a ++ b)) := by
  obtain ⟨a, ha, has⟩ := hx
  obtain ⟨b, hb, hbs⟩ := hy
  exact ⟨a ++ b, ha.bind (hb.bind rfl), List.forall_mem_append.2 ⟨has, hbs⟩⟩

theorem ChecksSorted.append₃ {x y z : ExprM (List IL.Stmt)} (hx : ChecksSorted Δ env P x)
    (hy : ChecksSorted Δ env P y) (hz : ChecksSorted Δ env P z) :
    ChecksSorted Δ env P (x >>= fun a => y >>= fun b => z >>= fun c => pure (a ++ b ++ c)) := by
  obtain ⟨a, ha, has⟩ := hx
  obtain ⟨b, hb, hbs⟩ := hy
  obtain ⟨c, hc, hcs⟩ := hz
  refine ⟨a ++ b ++ c, ha.bind (hb.bind (hc.bind rfl)), ?_⟩
  exact List.forall_mem_append.2 ⟨List.forall_mem_append.2 ⟨has, hbs⟩, hcs⟩

theorem ChecksSorted.append₄ {w x y z : ExprM (List IL.Stmt)} (hw : ChecksSorted Δ env P w)
    (hx : ChecksSorted Δ env P x) (hy : ChecksSorted Δ env P y) (hz : ChecksSorted Δ env P z) :
    ChecksSorted Δ env P (w >>= fun a => x >>= fun b => y >>= fun c => z >>= fun d =>
      pure (a ++ b ++ c ++ d)) := by
  obtain ⟨a, ha, has⟩ := hw
  obtain ⟨bcd, hbcd, hbcds⟩ := hx.append₃ hy hz
  obtain ⟨b, hb, hrest⟩ := ExprM.returns_bind.1 hbcd
  obtain ⟨c, hc, hrest⟩ := ExprM.returns_bind.1 hrest
  obtain ⟨d, hd, hrest⟩ := ExprM.returns_bind.1 hrest
  obtain rfl := ExprM.returns_pure.1 hrest
  refine ⟨a ++ b ++ c ++ d, ha.bind (hb.bind (hc.bind (hd.bind rfl))), ?_⟩
  simpa only [List.append_assoc] using List.forall_mem_append.2 ⟨has, hbcds⟩

theorem assertUnder_sorted {auto : Bool} {Q : Sorts → Prop} (h : Reaches Δ auto P frames Q)
    {o : Obligation} (ho : ∀ G, Q G → o.cond.sort? Δ G = some .bool) :
    ∀ s ∈ assertUnder auto frames o, s.BooleanCondition Δ P := by
  intro s hs
  unfold assertUnder at hs
  simp only at hs
  split at hs
  · cases hs
  · obtain rfl := List.mem_singleton.1 hs
    exact ⟨_, .inr ⟨_, rfl⟩, h _ ho⟩

theorem assumeUnder_sorted {auto : Bool} {Q : Sorts → Prop} (h : Reaches Δ auto P frames Q)
    {fact : IL.Expr} (hfact : ∀ G, Q G → fact.sort? Δ G = some .bool) :
    ∀ s ∈ assumeUnder auto frames fact, s.BooleanCondition Δ P := by
  intro s hs
  unfold assumeUnder at hs
  simp only at hs
  split at hs
  · cases hs
  · obtain rfl := List.mem_singleton.1 hs
    exact ⟨_, .inl rfl, h _ hfact⟩

/-- The statements of the outermost operation of a well-typed expression. -/
theorem checkNode_sorted (h : Checkable Δ env v₀ hasThis Γ₀ limits) (hv : v₀.Of v)
    (hΓ : Γ Naming.objVar = none)
    (he : WellTyped env.context (.checking env v₀ Γ₀) hasThis Γ e)
    (hframes : Reaches Δ env.context.options.autoTriggers P frames
      (Inside Δ env v₀ hasThis Γ₀ Γ)) :
    ChecksSorted Δ env P (checkNode v limits frames e) := by
  obtain ⟨os, hos, hobliged⟩ := nodeObligations_sorted h hv hΓ he
  obtain ⟨fact, hfact, hfacts⟩ := canCallFact?_sorted h.signed hv he
  refine ⟨_, ExprM.Returns.bind rfl (hos.bind (hfact.bind rfl)), fun s hs => ?_⟩
  simp only [List.mem_append, List.mem_flatMap] at hs
  rcases hs with ⟨o, ho, hs⟩ | ⟨a, ha, hs⟩
  · exact assertUnder_sorted hframes (hobliged o ho) s hs
  · exact assumeUnder_sorted hframes
      (fun G hG => hfacts a (Option.mem_toList.1 ha) G (hG.1.of hv)) s hs

/-- Below binders of the source that hide nothing. -/
theorem Inside.bind (hS : Signed Δ env) {bs : List Source.Binder}
    (hbs : ∀ b ∈ bs, (Discipline.checking env v₀ Γ₀).binder b.1) {G : Sorts}
    (h : Inside Δ env v₀ hasThis Γ₀ Γ G) :
    Inside Δ env v₀ hasThis Γ₀ (Γ.bind bs) (G.bind (sortBinders bs)) := by
  refine ⟨h.1.bind hS fun b hb => (hbs b hb).1, h.2.beside hS fun b hb => ?_⟩
  obtain ⟨c, hc, rfl⟩ := List.mem_map.1 hb
  exact ⟨(hbs c hc).1, (hbs c hc).2.2⟩

theorem Source.Typing.bind_objVar {bs : List Source.Binder}
    (hbs : ∀ b ∈ bs, (Discipline.checking env v₀ Γ₀).binder b.1) (hΓ : Γ Naming.objVar = none) :
    Γ.bind bs Naming.objVar = none := by
  refine (Typing.bind_of_notMem fun hmem => ?_).trans hΓ
  obtain ⟨b, hb, hname⟩ := List.mem_map.1 hmem
  exact (hbs b hb).2.1 hname

/-- The frame of bound variables of the source. -/
theorem ofBinders_reaches (h : Checkable Δ env v₀ hasThis Γ₀ limits) (hv : v₀.Of v)
    {auto : Bool} {bs : List Source.Binder} (hnodup : (bs.map (·.1)).Nodup)
    (hbs : ∀ b ∈ bs, (Discipline.checking env v₀ Γ₀).binder b.1 ∧ b.2.Resolved env.context)
    (hframes : Reaches Δ auto P frames (Inside Δ env v₀ hasThis Γ₀ Γ)) :
    ∃ frame, (Frame.ofBinders v bs).Returns env frame ∧
      Reaches Δ auto P (frame :: frames) (Inside Δ env v₀ hasThis Γ₀ (Γ.bind bs)) := by
  obtain ⟨w, hw, hws⟩ := bindersWhere_sorted v hasThis h.signed
    fun b hb => ⟨fun hr => (hbs b hb).1.1 (hv.reserved hr), (hbs b hb).2⟩
  have hinside : ∀ G, Inside Δ env v₀ hasThis Γ₀ Γ G →
      Inside Δ env v₀ hasThis Γ₀ (Γ.bind bs) (G.bind (sortBinders bs)) :=
    fun G hG => hG.bind h.signed fun b hb => (hbs b hb).1
  refine ⟨_, hw.bind rfl, hframes.forAll hinside fun G hG => ?_⟩
  exact hws ((hinside G hG).1.of hv) (sorts_of_nodup hnodup)

theorem check?_sorted {o : Option Source.Expr}
    (h : ∀ x ∈ o, ChecksSorted Δ env P (check v limits frames x)) :
    ChecksSorted Δ env P (check? v limits frames o) := by
  cases o with
  | none => exact .nil
  | some x => exact h x rfl

theorem checkList_sorted {es : List Source.Expr}
    (h : ∀ x ∈ es, ChecksSorted Δ env P (check v limits frames x)) :
    ChecksSorted Δ env P (checkList v limits frames es) := by
  induction es with
  | nil => exact .nil
  | cons x es ih =>
    obtain ⟨hx, hes⟩ := List.forall_mem_cons.1 h
    rw [checkList]
    exact hx.append (ih hes)

theorem checkEntries_sorted {kvs : List (Source.Expr × Source.Expr)}
    (hkeys : ∀ p ∈ kvs, ChecksSorted Δ env P (check v limits frames p.1))
    (hvalues : ∀ p ∈ kvs, ChecksSorted Δ env P (check v limits frames p.2)) :
    ChecksSorted Δ env P (checkEntries v limits frames kvs) := by
  induction kvs with
  | nil => exact .nil
  | cons p kvs ih =>
    obtain ⟨hkey, hkeys⟩ := List.forall_mem_cons.1 hkeys
    obtain ⟨hvalue, hvalues⟩ := List.forall_mem_cons.1 hvalues
    rw [checkEntries]
    exact hkey.append₃ hvalue (ih hkeys hvalues)

theorem checkBindings_sorted {bs : List (String × Source.Expr)}
    (h : ∀ p ∈ bs, ChecksSorted Δ env P (check v limits frames p.2)) :
    ChecksSorted Δ env P (checkBindings v limits frames bs) := by
  induction bs with
  | nil => exact .nil
  | cons p bs ih =>
    obtain ⟨hp, hbs⟩ := List.forall_mem_cons.1 h
    rw [checkBindings]
    exact hp.append (ih hbs)

/-- A condition of an expression is Boolean. -/
theorem rangeBool (hS : Signed Δ env) (hv : v₀.Of v)
    (he : WellTyped env.context (.checking env v₀ Γ₀) hasThis Γ e) (hbool : e.typ.sort = .bool) :
    ∃ x, (lowerExpr v e).Returns env x ∧
      ∀ G, Inside Δ env v₀ hasThis Γ₀ Γ G → x.sort? Δ G = some .bool := by
  obtain ⟨x, hx, hxs⟩ := he.lowers hS hv
  exact ⟨x, hx, fun G hG => (hxs G (hG.1.of hv)).trans (congrArg some hbool)⟩

/-- A range and then what it guards, below the same frames. -/
theorem ranged_sorted {Q : Sorts → Prop} {r t : Source.Expr}
    (hr : ChecksSorted Δ env P (check v limits frames r))
    (hlower : ∃ x, (lowerExpr v r).Returns env x ∧ ∀ G, Q G → x.sort? Δ G = some .bool)
    (hframes : Reaches Δ env.context.options.autoTriggers P frames Q)
    (ht : ∀ {frames}, Reaches Δ env.context.options.autoTriggers P frames Q →
      ChecksSorted Δ env P (check v limits frames t)) :
    ChecksSorted Δ env P (do
      let first ← check v limits frames r
      let x ← lowerExpr v r
      return first ++ (← check v limits (.guard x :: frames) t)) := by
  obtain ⟨a, ha, has⟩ := hr
  obtain ⟨x, hx, hxs⟩ := hlower
  obtain ⟨b, hb, hbs⟩ := ht (hframes.guard hxs)
  exact ⟨a ++ b, ha.bind (hx.bind (hb.bind rfl)), List.forall_mem_append.2 ⟨has, hbs⟩⟩

/-- The statements of several computations, one after the other. -/
theorem ChecksSorted.flatten {α : Type} {f : α → ExprM (List IL.Stmt)} {l : List α}
    (h : ∀ a ∈ l, ChecksSorted Δ env P (f a)) :
    ∃ sss, (l.mapM f).Returns env sss ∧ ∀ s ∈ sss.flatten, s.BooleanCondition Δ P := by
  induction l with
  | nil => exact ⟨[], ExprM.returns_mapM.2 .nil, by simp⟩
  | cons a l ih =>
    obtain ⟨⟨ss, hss, hsorted⟩, hrest⟩ := List.forall_mem_cons.1 h
    obtain ⟨sss, hsss, hall⟩ := ih hrest
    refine ⟨ss :: sss, ExprM.returns_mapM.2 (.cons hss (ExprM.returns_mapM.1 hsss)), ?_⟩
    exact List.forall_mem_append.2 ⟨hsorted, hall⟩

/-- The statements of a constructor of a matched datatype: those of its case, or that there is
none. -/
def checkCase (v : View) (limits : Limits) (frames : List Frame) (auto : Bool) (d : Datatype)
    (dt : Path) (s : IL.Expr) (span : Span) (arms : List (Pattern × Source.Expr)) (k : Ctor) :
    ExprM (List IL.Stmt) :=
  let frames := Frame.guard (.app (Naming.isCtor dt k.name) [s]) :: frames
  match (checkArms v limits arms).find? (·.1.ctor == k.name) with
  | none => return assertUnder auto frames (missingCase span k.name)
  | some (p, body) => do
    let bindings ← caseBindings d dt p s
    body (.bind bindings :: frames)

theorem checkCase_sorted (h : Checkable Δ env v₀ hasThis Γ₀ limits) {dt : Path}
    {d : Datatype} {arms : List (Pattern × Source.Expr)} (hd : env.context.datatype dt = .ok d)
    (hpatterns : ∀ p ∈ arms, ∃ ctor, d.ctor p.1.ctor = .ok ctor ∧
      List.Forall₂ (fun b f => f.2.Fits b.2) p.1.binders ctor.fields)
    (hnames : ∀ p ∈ arms, ∀ b ∈ p.1.binders, (Discipline.checking env v₀ Γ₀).binder b.1)
    {k : Ctor} (hk : k ∈ d.ctors) {s : IL.Expr}
    (hs : ∀ G, Inside Δ env v₀ hasThis Γ₀ Γ G → s.sort? Δ G = some Prelude.datatypeSort)
    (hΓ : Γ Naming.objVar = none)
    (hframes : Reaches Δ env.context.options.autoTriggers P frames (Inside Δ env v₀ hasThis Γ₀ Γ))
    (hbodies : ∀ p ∈ arms, ∀ {frames}, Γ.bind p.1.binders Naming.objVar = none →
      Reaches Δ env.context.options.autoTriggers P frames
        (Inside Δ env v₀ hasThis Γ₀ (Γ.bind p.1.binders)) →
      ChecksSorted Δ env P (check v limits frames p.2)) (span : Span) :
    ChecksSorted Δ env P
      (checkCase v limits frames env.context.options.autoTriggers d dt s span arms k) := by
  have hS := h.signed
  have hguard := hframes.guard (c := .app (Naming.isCtor dt k.name) [s]) fun G hG =>
    WhereClause.sort?_isCtor hS hd hk (hs G hG)
  unfold checkCase
  rw [checkArms_eq, List.find?_map]
  cases hfind : arms.find? ((fun p => p.1.ctor == k.name) ∘ fun p =>
      (p.1, fun frames => check v limits frames p.2)) with
  | none => exact ⟨_, rfl, assertUnder_sorted hguard fun G _ => rfl⟩
  | some p =>
    have hp := List.mem_of_find?_eq_some hfind
    obtain ⟨ctor, hctor, hfit⟩ := hpatterns p hp
    obtain ⟨bs, hbs, hbindings⟩ := caseBindings_sorted (a := s) hS hd hctor hfit
    have hreach := hguard.bind (fun G hG => hbindings G (hs G hG))
      fun G hG => hG.bind hS (hnames p hp)
    obtain ⟨ss, hss, hsorted⟩ := hbodies p hp (Typing.bind_objVar (hnames p hp) hΓ) hreach
    exact ⟨ss, hbs.bind hss, hsorted⟩

/-- Whatever is asserted or assumed of a well-typed expression is Boolean, if no variable it binds
hides one of the enclosing member's limits and no boxed value is passed for a natural number. -/
theorem check_sorted (h : Checkable Δ env v₀ hasThis Γ₀ limits)
    (he : WellTyped env.context (.checking env v₀ Γ₀) hasThis Γ e) (hv : v₀.Of v)
    (hΓ : Γ Naming.objVar = none)
    (hframes : Reaches Δ env.context.options.autoTriggers P frames
      (Inside Δ env v₀ hasThis Γ₀ Γ)) :
    ChecksSorted Δ env P (check v limits frames e) := by
  have hS := h.signed
  induction he generalizing v frames with
  | bool | int | null | var | this => exact .nil
  | field hfield hobj htyp he ih =>
    rw [check]
    exact (ih hv hΓ hframes).append
      (checkNode_sorted h hv hΓ (.field hfield hobj htyp he) hframes)
  | index htyp ha hb iha ihb =>
    rw [check]
    exact (iha hv hΓ hframes).append₃ (ihb hv hΓ hframes)
      (checkNode_sorted h hv hΓ (.index htyp ha hb) hframes)
  | slice hcoll htyp hint he hlo hhi ih ihlo ihhi =>
    rw [check]
    exact (ih hv hΓ hframes).append₄ (check?_sorted fun x hx => ihlo x hx hv hΓ hframes)
      (check?_sorted fun x hx => ihhi x hx hv hΓ hframes)
      (checkNode_sorted h hv hΓ (.slice hcoll htyp hint he hlo hhi) hframes)
  | update hcoll htyp he hk hw ihe ihk ihw =>
    rw [check]
    exact (ihe hv hΓ hframes).append₄ (ihk hv hΓ hframes) (ihw hv hΓ hframes)
      (checkNode_sorted h hv hΓ (.update hcoll htyp he hk hw) hframes)
  | arrayLength harray htyp he ih =>
    rw [check]
    exact (ih hv hΓ hframes).append (checkNode_sorted h hv hΓ (.arrayLength harray htyp he) hframes)
  | display hkind htyp _ ih =>
    rw [check]
    exact checkList_sorted fun x hx => ih x hx hv hΓ hframes
  | mapDisplay htyp hentries _ _ ihk ihv =>
    rw [check]
    exact checkEntries_sorted (fun p hp => ihk p hp hv hΓ hframes)
      fun p hp => ihv p hp hv hΓ hframes
  | ctor hd hctor htyp hargs hes ih =>
    rw [check]
    exact (checkList_sorted fun x hx => ih x hx hv hΓ hframes).append
      (checkNode_sorted h hv hΓ (.ctor hd hctor htyp hargs hes) hframes)
  | destruct hd hctor hfield hvalue htyp he ih =>
    rw [check]
    exact (ih hv hΓ hframes).append
      (checkNode_sorted h hv hΓ (.destruct hd hctor hfield hvalue htyp he) hframes)
  | isCtor _ _ _ _ _ ih =>
    rw [check]
    exact ih hv hΓ hframes
  | old htyp _ ih =>
    rw [check]
    exact ih hv.old hΓ hframes
  | fresh _ _ _ ih =>
    rw [check]
    exact ih hv hΓ hframes
  | unary htyp _ ih =>
    rw [check]
    exact ih hv hΓ hframes
  | @binary Γ i op a b htyp ha hb iha ihb =>
    obtain ⟨x, hx, hxs⟩ := ha.lowers hS hv
    have hguarded : ∀ guard, guardOfFirst? op = some guard → ∀ G,
        Inside Δ env v₀ hasThis Γ₀ Γ G → (guard x).sort? Δ G = some .bool := by
      intro guard hop G hG
      have hsort := hxs G (hG.1.of hv)
      cases op <;> simp only [guardOfFirst?, Option.some.injEq, reduceCtorEq] at hop <;> subst hop
      · exact hsort.trans (congrArg some htyp.1)
      · exact Expr.sort?_neg (hsort.trans (congrArg some htyp.1))
      · exact hsort.trans (congrArg some htyp.1)
    obtain ⟨first, hfirst, hfirsts⟩ := iha hv hΓ hframes
    rw [check]
    cases hop : guardOfFirst? op with
    | some guard =>
      obtain ⟨rest, hrest, hrests⟩ := ihb hv hΓ (hframes.guard (hguarded guard hop))
      exact ⟨first ++ rest, hfirst.bind (hx.bind (hrest.bind rfl)),
        List.forall_mem_append.2 ⟨hfirsts, hrests⟩⟩
    | none =>
      exact (iha hv hΓ hframes).append₃ (ihb hv hΓ hframes)
        (checkNode_sorted h hv hΓ (.binary htyp ha hb) hframes)
  | @quant Γ i q bs r e ts ind hnodup hbs htyp hbool hr he hts ihr ihe ihts =>
    obtain ⟨frame, hframe, hreach⟩ := ofBinders_reaches h hv hnodup hbs hframes
    have hΓ' := Typing.bind_objVar (fun b hb => (hbs b hb).1) hΓ
    rw [check]
    cases r with
    | none =>
      obtain ⟨ss, hss, hsorted⟩ := ihe hv hΓ' hreach
      exact ⟨ss, hframe.bind hss, hsorted⟩
    | some x =>
      have hrange := ranged_sorted (ihr x rfl hv hΓ' hreach)
        (rangeBool hS hv (hr x rfl) (hbool x (.inl rfl))) hreach fun hf => ihe hv hΓ' hf
      obtain ⟨ss, hss, hsorted⟩ := hrange
      exact ⟨ss, hframe.bind hss, hsorted⟩
  | @setComp Γ i bs r t elem hnodup hbs htyp hbool hterm helem hr ht ihr iht =>
    obtain ⟨frame, hframe, hreach⟩ := ofBinders_reaches h hv hnodup hbs hframes
    have hΓ' := Typing.bind_objVar (fun b hb => (hbs b hb).1) hΓ
    rw [check]
    cases t with
    | none =>
      obtain ⟨ss, hss, hsorted⟩ := ihr hv hΓ' hreach
      exact ⟨ss, hframe.bind (hss.bind rfl), hsorted⟩
    | some x =>
      have hrange := ranged_sorted (ihr hv hΓ' hreach) (rangeBool hS hv hr hbool) hreach
        fun hf => iht x rfl hv hΓ' hf
      obtain ⟨ss, hss, hsorted⟩ := hrange
      exact ⟨ss, hframe.bind hss, hsorted⟩
  | @mapComp Γ i b r t key value hb htyp hbool hvalue hr ht ihr iht =>
    obtain ⟨frame, hframe, hreach⟩ := ofBinders_reaches h hv
      (by simp) (List.forall_mem_singleton.2 hb) hframes
    have hΓ' := Typing.bind_objVar (List.forall_mem_singleton.2 hb.1) hΓ
    have hrange := ranged_sorted (ihr hv hΓ' hreach) (rangeBool hS hv hr hbool) hreach
      fun hf => iht hv hΓ' hf
    obtain ⟨ss, hss, hsorted⟩ := hrange
    exact ⟨ss, by rw [check]; exact hframe.bind hss, hsorted⟩
  | @letIn Γ i bs e hnames htyp hbs he ihbs ihe =>
    have hbinders : ∀ b ∈ bs.map fun p => (p.1, p.2.typ),
        (Discipline.checking env v₀ Γ₀).binder b.1 := by
      intro b hb
      obtain ⟨p, hp, rfl⟩ := List.mem_map.1 hb
      exact hnames p hp
    obtain ⟨as, has, hbindings⟩ := lowerBindings_sorted fun p hp => (hbs p hp).lowers hS hv
    have hreach := hframes.bind (fun G hG => hbindings G (hG.1.of hv))
      fun G hG => hG.bind hS hbinders
    obtain ⟨first, hfirst, hfirsts⟩ := checkBindings_sorted fun p hp => ihbs p hp hv hΓ hframes
    obtain ⟨rest, hrest, hrests⟩ := ihe hv (Typing.bind_objVar hbinders hΓ) hreach
    exact ⟨first ++ rest, by rw [check]; exact hfirst.bind (has.bind (hrest.bind rfl)),
      List.forall_mem_append.2 ⟨hfirsts, hrests⟩⟩
  | @ite Γ i c a b hbool htyp hc ha hb ihc iha ihb =>
    obtain ⟨x, hx, hxs⟩ := rangeBool hS hv hc hbool
    obtain ⟨first, hfirst, hfirsts⟩ := ihc hv hΓ hframes
    obtain ⟨thn, hthn, hthns⟩ := iha hv hΓ (hframes.guard hxs)
    obtain ⟨els, hels, helss⟩ := ihb hv hΓ
      (hframes.guard fun G hG => Expr.sort?_neg (hxs G hG))
    exact ⟨first ++ thn ++ els,
      by rw [check]; exact hfirst.bind (hx.bind (hthn.bind (hels.bind rfl))),
      List.forall_mem_append.2 ⟨List.forall_mem_append.2 ⟨hfirsts, hthns⟩, helss⟩⟩
  | @cases Γ i e arms dt ts d hd hvalue hne hpatterns hnames htyp he harms ihe ihs =>
    obtain ⟨x, hx, hxs⟩ := he.lowers hS hv
    obtain ⟨first, hfirst, hfirsts⟩ := ihe hv hΓ hframes
    have hsort : ∀ G, Inside Δ env v₀ hasThis Γ₀ Γ G → x.sort? Δ G = some Prelude.datatypeSort :=
      fun G hG => (hxs G (hG.1.of hv)).trans (by rw [hvalue]; rfl)
    obtain ⟨rest, hrest, hrests⟩ := ChecksSorted.flatten fun k hk =>
      checkCase_sorted h hd hpatterns hnames hk hsort hΓ hframes
        (fun p hp {_} hΓ' hf => ihs p hp hv hΓ' hf) i.span
    refine ⟨first ++ rest.flatten, ?_, List.forall_mem_append.2 ⟨hfirsts, hrests⟩⟩
    rw [check]
    exact hfirst.bind (ExprM.Returns.bind (returns_matchedDatatype.2 ⟨ts, hvalue⟩)
      (hx.bind (ExprM.Returns.bind (ExprM.returns_datatype.2 hd)
        (ExprM.Returns.bind rfl (hrest.bind rfl)))))
  | call hf hthis hrecv hargs htyp hr hes ihr ihes =>
    rw [check]
    exact (check?_sorted fun x hx => ihr x hx hv hΓ hframes).append₃
      (checkList_sorted fun x hx => ihes x hx hv hΓ hframes)
      (checkNode_sorted h hv hΓ (.call hf hthis hrecv hargs htyp hr hes) hframes)

/-- Lowering a well-typed expression succeeds and gives an expression of the sort of its type, if no
variable it binds has a reserved name. If besides no bound variable hides one of the limits and no
boxed value is passed for a natural number, checking it succeeds too, and gives assertions and
assumptions of Boolean conditions only. -/
theorem lowering_wellSorted (hS : Signed Δ env)
    (he : WellTyped env.context (.lowering env v) hasThis Γ e) :
    (∃ a, (lowerExpr v e).Returns env a ∧
      ∀ G, Scope Δ env v hasThis Γ G → a.sort? Δ G = some e.typ.sort) ∧
    ∀ limits Γ₀, Checkable Δ env v hasThis Γ₀ limits →
      WellTyped env.context (.checking env v Γ₀) hasThis Γ e → Γ Naming.objVar = none →
      ∃ stmts, (definedness v limits e).Returns env stmts ∧
        ∀ s ∈ stmts, ∃ c, (s = .assume c ∨ ∃ m, s = .assert m c) ∧
          ∀ G, Inside Δ env v hasThis Γ₀ Γ G → c.sort? Δ G = some .bool :=
  ⟨lowerExpr_sorted hS he fun _ hx => hx, fun _ _ h hchecked hΓ =>
    check_sorted h hchecked (.refl v) hΓ .nil⟩

end

/-! ## A datatype with a natural number -/

namespace Counter

/-- A datatype with one constructor, which holds a natural number. -/
def datatype : Datatype := ⟨⟨"M", ["Counter"]⟩, default, [], [⟨"Of", default, [("n", .nat)]⟩]⟩

def context : Context := { datatypes := [datatype] }

def env : Env := { context }

/-- A counter of an expression. -/
def counter (e : Source.Expr) : Source.Expr :=
  .ctor ⟨default, .datatype ⟨"M", ["Counter"]⟩ []⟩ ⟨"M", ["Counter"]⟩ "Of" [e]

/-- The functions of the prelude and of the datatype. -/
def functions : List (String × List Srt × Srt) :=
  Prelude.functions.map (fun f => (f.1, f.2.1.map Srt.ofName, Srt.ofName f.2.2)) ++
    [("M.Counter.Of", [.int], Prelude.datatypeSort),
     ("is%M.Counter.Of", [Prelude.datatypeSort], .bool),
     ("M.Counter.Of/n", [Prelude.datatypeSort], .int)]

def vocabulary : Vocabulary where
  func f := functions.lookup f
  global x := [("$Heap", Prelude.heapSort), ("ctor%M.Counter.Of", Prelude.ctorIdSort)].lookup x

theorem eq_of_datatype {p : Path} {d : Datatype} (h : env.context.datatype p = .ok d) :
    p = datatype.path ∧ d = datatype := by
  obtain ⟨hmem, hpath⟩ := Context.mem_of_orBroken h
  obtain rfl : d = datatype := by simpa [env, context] using hmem
  exact ⟨by simpa [eq_comm] using hpath, rfl⟩

theorem signed : Signed vocabulary env where
  covers :=
    { prelude := fun _ hf => Prelude.lookup_functions _ hf
      fields := nofun
      ctors := by
        intro p d hd k hk e he
        obtain ⟨rfl, rfl⟩ := eq_of_datatype hd
        obtain rfl := List.mem_singleton.1 hk
        simp only [Ctor.decls, List.map_cons, List.map_nil, List.cons_append, List.nil_append,
          List.mem_cons, List.not_mem_nil, or_false] at he
        rcases he with rfl | rfl | rfl | rfl <;> show List.lookup _ _ = _ <;> decide +kernel
      functions := nofun }
  handle := nofun

/-- A heap, the constants of the heap model and a variable of a type parameter. -/
def sorts : Sorts := fun x =>
  if x.toList.take 6 = "class%".toList then some Prelude.classNameSort
  else [("$Heap", Prelude.heapSort), ("null", Prelude.refSort), ("alloc", Prelude.fieldSort),
    ("Set.Empty", Prelude.setSort), ("MultiSet.Empty", Prelude.multisetSort),
    ("Seq.Empty", Prelude.seqSort), ("Map.Empty", Prelude.mapSort),
    ("x", Prelude.boxSort)].lookup x

def view : View := { heap := .var "$Heap", oldHeap := .old "$Heap" }

/-- Only `x` is a variable of the source. -/
def typing : Typing := fun y => if y = "x" then some (.param "T") else none

theorem not_reserved {y : String} (h : Reserved env view y) : y.toList.tail ≠ [] := by
  cases h with
  | const h =>
    simp only [preludeConstants, List.mem_cons, List.not_mem_nil, or_false] at h
    rcases h with rfl | rfl | rfl | rfl | rfl | rfl <;> decide
  | cls p => simp [Naming.cls]
  | field hf => cases hf
  | this => decide
  | heap h =>
    obtain rfl : y = "$Heap" := by simpa [view, Expr.names] using h
    decide
  | oldHeap h => simp [view, Expr.names] at h
  | generated h =>
    cases h with
    | box => decide
    | boxAt d => simp [WhereClause.boxVar, Naming.boxVar]
    | indexAt d => simp [WhereClause.indexVar, Naming.indexVar]

theorem scope : Scope vocabulary env view false typing sorts where
  vars {y t} hy := by
    simp only [typing, Option.ite_none_right_eq_some, Option.some.injEq] at hy
    obtain ⟨rfl, rfl⟩ := hy
    exact ⟨fun h => not_reserved h rfl, rfl⟩
  null := rfl
  alloc := rfl
  setEmpty := rfl
  multisetEmpty := rfl
  seqEmpty := rfl
  mapEmpty := rfl
  cls p := by simp [sorts, Naming.cls]
  field := nofun
  this := nofun
  thisName h := by simpa [view, Naming.this] using h.head
  heap hG := hG "$Heap" (by simp [view, Expr.names])
  oldHeap _ := rfl
  heapNames y hy h := by
    obtain rfl : y = "$Heap" := by simpa [view, Expr.names] using hy
    exact absurd h.start (by decide)

/-- Counters of equal natural numbers are equal. -/
def equation : Source.Expr :=
  let i : Source.Expr := .var ⟨default, .int⟩ "i"
  .quant ⟨default, .bool⟩ .all [("i", .int)] none
    (.binary ⟨default, .bool⟩ .implies (.binary ⟨default, .bool⟩ .le (.int ⟨default, .int⟩ 0) i)
      (.binary ⟨default, .bool⟩ .eq (counter i) (counter i))) [] .default

theorem counter_wellTyped {D : Discipline} {Γ : Typing} {e : Source.Expr}
    (he : WellTyped context D false Γ e) (hfit : e.typ.Fits .nat) (harg : D.argument e.typ .nat) :
    WellTyped context D false Γ (counter e) :=
  .ctor (d := datatype) rfl rfl rfl (.cons ⟨hfit, harg⟩ .nil) (by simpa using he)

theorem equation_wellTyped {D : Discipline} (hi : D.binder "i") (harg : D.argument .int .nat) :
    WellTyped context D false typing equation := by
  have hvar : WellTyped context D false (typing.bind [("i", .int)])
      (.var ⟨default, .int⟩ "i") := .var rfl
  have hcounter := counter_wellTyped hvar (.inl rfl) harg
  refine .quant (by simp) ?_ rfl ?_ (by simp) ?_ (by simp)
  · intro b hb
    obtain rfl := List.mem_singleton.1 hb
    exact ⟨hi, trivial⟩
  · rintro y (hy | rfl)
    · cases hy
    · rfl
  · exact .binary ⟨rfl, rfl, rfl⟩ (.binary ⟨.inr rfl, rfl, rfl⟩ (.int rfl) hvar)
      (.binary ⟨.inl rfl, rfl⟩ hcounter hcounter)

theorem checkable : Checkable vocabulary env view false typing {} where
  signed := signed
  apart :=
    { heap := fun y hy => by
        obtain rfl : y = "$Heap" := by simpa [view, Expr.names] using hy
        decide
      this := by decide }
  contracts := nofun
  limits := ⟨nofun, nofun, rfl⟩

end Counter

/-- The equation is lowered to a Boolean expression, and what is asserted of it is Boolean: below
the quantifier and the condition, the number is compared with zero. -/
theorem lowering_wellSorted_equation :
    (∃ a, (lowerExpr Counter.view Counter.equation).Returns Counter.env a ∧
      a.sort? Counter.vocabulary Counter.sorts = some .bool) ∧
    ∃ stmts, (definedness Counter.view {} Counter.equation).Returns Counter.env stmts ∧
      ∀ s ∈ stmts, ∃ c, (s = .assume c ∨ ∃ m, s = .assert m c) ∧
        c.sort? Counter.vocabulary Counter.sorts = some .bool := by
  have hi : ¬ Reserved Counter.env Counter.view "i" := fun h => Counter.not_reserved h rfl
  obtain ⟨⟨a, ha, hsorted⟩, hchecks⟩ := lowering_wellSorted Counter.signed
    (Counter.equation_wellTyped (D := .lowering Counter.env Counter.view) hi trivial)
  obtain ⟨stmts, hstmts, hall⟩ := hchecks {} Counter.typing Counter.checkable
    (Counter.equation_wellTyped ⟨hi, by decide, rfl⟩ fun h => absurd h (by decide)) rfl
  refine ⟨⟨a, ha, hsorted _ Counter.scope⟩, stmts, hstmts, fun s hs => ?_⟩
  obtain ⟨c, hc, hbool⟩ := hall s hs
  exact ⟨c, hc, hbool _ ⟨Counter.scope, Counter.scope⟩⟩

/-- A value of a type parameter that is passed for a natural number is well typed, and converted
where it is used, but it is compared with zero as a box. -/
theorem unsorted_of_boxed_natural : ∃ (e : Source.Expr) (m : Message) (c : IL.Expr),
    Signed Counter.vocabulary Counter.env ∧ WellTyped Counter.context .free false Counter.typing e ∧
    Scope Counter.vocabulary Counter.env Counter.view false Counter.typing Counter.sorts ∧
    (definedness Counter.view {} e).Returns Counter.env [.assert m c] ∧
      c.sort? Counter.vocabulary Counter.sorts = none := by
  refine ⟨Counter.counter (.var ⟨default, .param "T"⟩ "x"), natMessage default,
    .le (.nat 0) (.var "x"), Counter.signed, ?_, Counter.scope, ?_, ?_⟩
  · exact Counter.counter_wellTyped (.var rfl) (.inr (by decide)) trivial
  · rfl
  · rfl

end ContractLowering
