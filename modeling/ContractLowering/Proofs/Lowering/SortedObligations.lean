import ContractLowering.Proofs.Lowering.Descent
import ContractLowering.Proofs.Lowering.WellSorted

/-!
# Obligations of well-typed operations are Boolean

What an operation of a well-typed expression needs is Boolean (`nodeObligations_sorted`). Two kinds
of names meet in it: those of the expression itself, and those of the enclosing member's reads
clause and measure. The contract of a callee is lowered below bindings of its receiver and its
parameters.

An integer where a natural number is expected is compared with zero in its own representation, so
boxed values cannot stand there.
-/

namespace ContractLowering

open IL Source

/-! ## Names of contracts and limits -/

/-- The names of heaps and of the receiver differ from those that checks bind themselves. -/
structure View.Apart (v : View) : Prop where
  heap : ∀ x ∈ v.heap.names ++ v.oldHeap.names, x ≠ Naming.this ∧ x ≠ Naming.objVar
  this : v.this.getD Naming.this ≠ Naming.objVar

/-- A view, or that of its old state. -/
def View.Of (v₀ v : View) : Prop := v = v₀ ∨ v = v₀.old

/-- What a callee's contract is lowered in: its receiver has the default name. -/
def View.callee (v : View) : View := { v with this := none }

/-- Variables may have every name that is not reserved. -/
def Source.Discipline.lowering (env : Env) (v : View) : Discipline :=
  ⟨fun x => ¬ Reserved env v x, fun _ _ => True⟩

/-- Variables of contracts may have every name that is not reserved where callers lower them. -/
def Source.Discipline.contract (env : Env) (v : View) : Discipline :=
  ⟨fun x => ¬ Reserved env v.callee x ∧ x ≠ Naming.objVar, fun _ _ => True⟩

/-- Bound variables take no reserved name and hide no variable of `Γ₀`, and boxed values are not
passed where natural numbers are expected. -/
def Source.Discipline.checking (env : Env) (v : View) (Γ₀ : Typing) : Discipline :=
  ⟨fun x => ¬ Reserved env v x ∧ x ≠ Naming.objVar ∧ Γ₀ x = none,
    fun source target => source.isBoxed = true → target ≠ .nat⟩

namespace View

variable {v v₀ : View}

theorem Of.refl (v : View) : v.Of v := .inl rfl

theorem Of.old (h : v₀.Of v) : v₀.Of v.old := by
  rcases h with rfl | rfl <;> exact .inr rfl

theorem Of.reserved {env : Env} {x : String} (h : v₀.Of v) (hx : Reserved env v x) :
    Reserved env v₀ x := by
  rcases h with rfl | rfl
  · exact hx
  · exact hx.of_old

theorem Of.callee (h : v₀.Of v) : v₀.callee.Of v.callee := by
  rcases h with rfl | rfl
  · exact .inl rfl
  · exact .inr rfl

theorem Apart.of (h : v₀.Apart) (hv : v₀.Of v) : v.Apart := by
  rcases hv with rfl | rfl
  · exact h
  · refine ⟨fun x hx => h.heap x ?_, h.this⟩
    simp only [View.old, List.mem_append] at hx ⊢
    tauto

end View

theorem Generated.start {x : String} (h : Generated x) :
    x.toList.take 2 = ['$', 'b'] ∨ x.toList.take 2 = ['$', 'i'] := by
  cases h with
  | box => exact .inl (by decide)
  | boxAt d => exact .inl (by simp [WhereClause.boxVar, Naming.boxVar])
  | indexAt d => exact .inr (by simp [WhereClause.indexVar, Naming.indexVar])

theorem field_ne_of_notMem {f : FieldId} {x : String} (hx : '.' ∉ x.toList) :
    Naming.field f ≠ x := by
  rintro rfl
  exact hx (by simp [Naming.field])

theorem cls_ne_of_head {p : Path} {x : String} (hx : x.toList.head? ≠ some 'c') :
    Naming.cls p ≠ x := by
  rintro rfl
  exact hx (by simp [Naming.cls])

/-- The variable over objects is not reserved. -/
theorem Reserved.ne_objVar {Δ : Vocabulary} {env : Env} (hS : Signed Δ env) {v : View}
    (hv : v.Apart) {x : String} (h : Reserved env v x) : x ≠ Naming.objVar := by
  cases h with
  | const h =>
    simp only [preludeConstants, List.mem_cons, List.not_mem_nil, or_false] at h
    rcases h with rfl | rfl | rfl | rfl | rfl | rfl <;> decide
  | cls p => exact cls_ne_of_head (by decide)
  | @field f h =>
    rw [hS.handle f h]
    exact field_ne_of_notMem (by decide)
  | this => exact hv.this
  | heap h => exact (hv.heap _ (by simp [h])).2
  | oldHeap h => exact (hv.heap _ (by simp [h])).2
  | generated h =>
    rintro rfl
    exact absurd h.start (by decide)

namespace Scope

variable {Δ : Vocabulary} {env : Env} {v v₀ : View} {hasThis : Bool} {Γ Γ₀ : Typing} {G : Sorts}

theorem of (h : Scope Δ env v₀ hasThis Γ G) (hv : v₀.Of v) : Scope Δ env v hasThis Γ G := by
  rcases hv with rfl | rfl
  · exact h
  · exact h.old

/-- The variable over objects may be bound where no variable of the source has its name. -/
theorem object (hS : Signed Δ env) (hv : v.Apart) (h : Scope Δ env v hasThis Γ G)
    (hΓ : Γ Naming.objVar = none) :
    Scope Δ env v hasThis Γ (Function.update G Naming.objVar (some Prelude.refSort)) := by
  refine h.change hS (fun x hx _ => Function.update_of_ne (hx.ne_objVar hS hv) _ _)
    fun {x t} hx => ?_
  have hne : x ≠ Naming.objVar := by
    rintro rfl
    rw [hΓ] at hx
    cases hx
  exact ⟨(h.vars hx).1, (Function.update_of_ne hne _ _).trans (h.vars hx).2⟩

/-- Frames may bind names that are not reserved and that a typing does not know. -/
theorem beside (hS : Signed Δ env) (h : Scope Δ env v hasThis Γ₀ G) {bs : List IL.Binder}
    (hbs : ∀ b ∈ bs, ¬ Reserved env v b.1 ∧ Γ₀ b.1 = none) :
    Scope Δ env v hasThis Γ₀ (G.bind bs) := by
  have hnotMem : ∀ x, Reserved env v x ∨ (Γ₀ x).isSome → x ∉ bs.map (·.1) := by
    intro x hx hmem
    obtain ⟨b, hb, rfl⟩ := List.mem_map.1 hmem
    obtain ⟨hfree, hnone⟩ := hbs b hb
    rcases hx with hx | hx
    · exact hfree hx
    · simp [hnone] at hx
  refine h.change hS (fun x hx _ => Sorts.bind_of_notMem (hnotMem x (.inl hx))) fun {x t} hx => ?_
  exact ⟨(h.vars hx).1, (Sorts.bind_of_notMem (hnotMem x (.inr (by simp [hx])))).trans
    (h.vars hx).2⟩

/-- The names that are bound for the contract of a function: its receiver and its parameters. -/
theorem callee (hS : Signed Δ env) (hv : v.Apart) (h : Scope Δ env v hasThis Γ G) {f : Function}
    (hparams : ∀ b ∈ f.params, ¬ Reserved env v.callee b.1) :
    Scope Δ env v.callee f.owner.isSome (Typing.bind f.params fun _ => none)
      (G.bind (f.thisBinder ++ sortBinders f.params)) := by
  have hbind : G.bind (f.thisBinder ++ sortBinders f.params) =
      (G.bind f.thisBinder).bind (sortBinders f.params) := by
    simp [Sorts.bind, List.foldl_append]
  have hkeep : ∀ x, x ≠ Naming.this → G.bind f.thisBinder x = G x := by
    intro x hx
    refine Sorts.bind_of_notMem ?_
    unfold Function.thisBinder
    split <;> simp [hx]
  rw [hbind]
  suffices h : Scope Δ env v.callee f.owner.isSome (fun _ => none) (G.bind f.thisBinder) from
    h.bind hS hparams
  exact
    { vars := nofun
      null := (hkeep _ (by decide)).trans h.null
      alloc := (hkeep _ (by decide)).trans h.alloc
      setEmpty := (hkeep _ (by decide)).trans h.setEmpty
      multisetEmpty := (hkeep _ (by decide)).trans h.multisetEmpty
      seqEmpty := (hkeep _ (by decide)).trans h.seqEmpty
      mapEmpty := (hkeep _ (by decide)).trans h.mapEmpty
      cls := fun p => (hkeep _ (cls_ne_of_head (by decide))).trans (h.cls p)
      field := fun f hf hmut =>
        (hkeep _ (field_ne_of_notMem (by decide))).trans (h.field f hf hmut)
      this := fun howner => by
        show G.bind f.thisBinder Naming.this = _
        simp [Function.thisBinder, howner]
      thisName := fun hgen => by simpa [View.callee, Naming.this] using hgen.head
      heap := fun hG' => h.heap fun x hx =>
        (hG' x hx).trans (hkeep x (hv.heap x (by simp [hx])).1)
      oldHeap := fun hG' => h.oldHeap fun x hx =>
        (hG' x hx).trans (hkeep x (hv.heap x (by simp [hx])).1)
      heapNames := h.heapNames }

end Scope

/-! ## Obligations of single operations -/

section

variable {Δ : Vocabulary} {env : Env} {v : View} {hasThis : Bool} {Γ : Typing}

/-- A computation gives obligations that are Boolean wherever the names in scope have their
sorts. -/
def Obliges (Δ : Vocabulary) (env : Env) (P : Sorts → Prop) (x : ExprM (List Obligation)) : Prop :=
  ∃ os, x.Returns env os ∧ ∀ o ∈ os, ∀ G, P G → o.cond.sort? Δ G = some .bool

theorem Obliges.imp {P Q : Sorts → Prop} {x : ExprM (List Obligation)} (h : Obliges Δ env P x)
    (hPQ : ∀ G, Q G → P G) : Obliges Δ env Q x := by
  obtain ⟨os, hos, hsorted⟩ := h
  exact ⟨os, hos, fun o ho G hG => hsorted o ho G (hPQ G hG)⟩

theorem Obliges.nil {P : Sorts → Prop} : Obliges Δ env P (pure []) := ⟨[], rfl, by simp⟩

/-- Obligations of two computations, one after the other. -/
theorem Obliges.append {P : Sorts → Prop} {x y : ExprM (List Obligation)}
    (hx : Obliges Δ env P x) (hy : Obliges Δ env P y) :
    Obliges Δ env P (x >>= fun a => y >>= fun b => pure (a ++ b)) := by
  obtain ⟨a, ha, has⟩ := hx
  obtain ⟨b, hb, hbs⟩ := hy
  exact ⟨a ++ b, ha.bind (hb.bind rfl), List.forall_mem_append.2 ⟨has, hbs⟩⟩

namespace Obligation

theorem nonNull_sorted {e : Source.Expr} (h : LowersSorted Δ env v hasThis Γ e)
    (hs : e.typ.sort = Prelude.refSort) :
    Obliges Δ env (Scope Δ env v hasThis Γ) (nonNull v e) := by
  unfold nonNull
  split
  · exact .nil
  · obtain ⟨a, ha, hsorted⟩ := h
    refine ⟨_, ha.bind rfl, fun o ho G hG => ?_⟩
    obtain rfl := List.mem_singleton.1 ho
    exact Expr.sort?_ne ((hsorted G hG).trans (congrArg some hs)) hG.null

/-- That an argument is a natural number, if one is expected and its type does not say so. -/
def natArg (v : View) (arg : Source.Expr) (param : Typ) : ExprM (List Obligation) :=
  if needsNatCheck arg.typ param then do
    let a ← lowerExpr v arg
    pure [⟨.le (.nat 0) a, natMessage arg.span⟩]
  else pure []

/-- Where a natural number is expected, an integer is compared with zero as it is. -/
theorem natArgs_sorted {Γ₀ : Typing} {v₀ : View} {args : List Source.Expr}
    {params : List Source.Binder} (h : ∀ e ∈ args, LowersSorted Δ env v hasThis Γ e)
    (hpass : (Discipline.checking env v₀ Γ₀).Passes args params) :
    Obliges Δ env (Scope Δ env v hasThis Γ) (natArgs v args params) := by
  induction hpass with
  | nil => exact .nil
  | @cons e p es params hfit _ ih =>
    obtain ⟨he, hes⟩ := List.forall_mem_cons.1 h
    have hcons : natArgs v (e :: es) (p :: params) = (natArg v e p.2 >>= fun here =>
        natArgs v es params >>= fun rest => pure (here ++ rest)) := by
      rw [natArgs, natArg]
      split <;> simp
    rw [hcons]
    refine .append ?_ (ih hes)
    unfold natArg
    split
    · rename_i hcheck
      obtain ⟨a, ha, hsorted⟩ := he
      have hnat : p.2 = .nat := by
        revert hcheck
        cases p.2 <;> simp [needsNatCheck]
      have hint : e.typ.sort = .int := by
        rcases hfit.1 with hsort | hboxed
        · rw [hsort, hnat]; rfl
        · refine absurd hnat (hfit.2 ?_)
          simpa [hnat, Typ.isBoxed, Typ.boxSort?] using hboxed
      refine ⟨_, ha.bind rfl, fun o ho G hG => ?_⟩
      obtain rfl := List.mem_singleton.1 ho
      exact Expr.sort?_le (Expr.sort?_nat 0) ((hsorted G hG).trans (congrArg some hint))
    · exact .nil

end Obligation

theorem sort?_frameEntry (hΔ : Δ.Operations) {G : Sorts} {t : Typ} (ht : t.IsFrame)
    {o e : IL.Expr} (ho : o.sort? Δ G = some Prelude.refSort) (he : e.sort? Δ G = some t.sort) :
    (frameEntry o t e).sort? Δ G = some .bool := by
  have hbox : (Boxing.boxRef o).sort? Δ G = some Prelude.boxSort :=
    Expr.sort?_app (hΔ.box .ref) (.cons ho .nil)
  rcases ht with ht | ht
  · have href := Expr.sort?_eq ho (he.trans (congrArg some ht))
    cases t with
    | set | multiset | seq => simp [Typ.sort, Prelude.setSort, Prelude.multisetSort,
        Prelude.seqSort, Prelude.refSort] at ht
    | _ => exact href
  · cases t <;> simp only [Typ.isCollection, Bool.false_eq_true] at ht
    case set => exact Expr.sort?_app hΔ.setMem (.cons he (.cons hbox .nil))
    case multiset =>
      exact Expr.sort?_lt (Expr.sort?_nat 0)
        (Expr.sort?_app hΔ.multiplicity (.cons he (.cons hbox .nil)))
    case seq => exact Expr.sort?_app hΔ.seqContains (.cons he (.cons hbox .nil))

/-- That an object is in a frame is Boolean. -/
theorem frameContains_sorted (hΔ : Δ.Operations) {frame : List Source.Expr}
    {o : IL.Expr} (h : ∀ e ∈ frame, e.typ.IsFrame ∧ LowersSorted Δ env v hasThis Γ e) :
    ∃ a, (frameContains v frame o).Returns env a ∧ ∀ G, Scope Δ env v hasThis Γ G →
      o.sort? Δ G = some Prelude.refSort → a.sort? Δ G = some .bool := by
  have hentries : ∃ as, List.Forall₂ (fun e a => (do
        let x ← lowerExpr v e
        return frameEntry o e.typ x : ExprM IL.Expr).Returns env a) frame as ∧
      ∀ a ∈ as, ∀ G, Scope Δ env v hasThis Γ G → o.sort? Δ G = some Prelude.refSort →
        a.sort? Δ G = some .bool := by
    induction frame with
    | nil => exact ⟨[], .nil, by simp⟩
    | cons e frame ih =>
      obtain ⟨⟨hframe, x, hx, hsorted⟩, hrest⟩ := List.forall_mem_cons.1 h
      obtain ⟨as, has, hass⟩ := ih hrest
      exact ⟨frameEntry o e.typ x :: as, .cons (hx.bind rfl) has, List.forall_mem_cons.2
        ⟨fun G hG ho => sort?_frameEntry hΔ hframe ho (hsorted G hG), hass⟩⟩
  obtain ⟨as, has, hass⟩ := hentries
  exact ⟨.disj as, (ExprM.returns_mapM.2 has).bind rfl, fun G hG ho =>
    Expr.sort?_disj fun a ha => hass a ha G hG ho⟩

/-- The names of an expression are in scope, and those of the enclosing member's limits. -/
def Inside (Δ : Vocabulary) (env : Env) (v : View) (hasThis : Bool) (Γ₀ Γ : Typing) (G : Sorts) :
    Prop :=
  Scope Δ env v hasThis Γ G ∧ Scope Δ env v hasThis Γ₀ G

variable {Γ₀ : Typing} {reads : Option (List Source.Expr)} {e : Source.Expr}

/-- The expressions of a reads clause are lowered to objects or collections of objects. -/
def ReadsSorted (Δ : Vocabulary) (env : Env) (v : View) (hasThis : Bool) (Γ₀ : Typing)
    (reads : Option (List Source.Expr)) : Prop :=
  ∀ frame ∈ reads, ∀ e ∈ frame, e.typ.IsFrame ∧ LowersSorted Δ env v hasThis Γ₀ e

namespace Obligation

theorem inReads_sorted (hΔ : Δ.Operations) (hreads : ReadsSorted Δ env v hasThis Γ₀ reads)
    (h : LowersSorted Δ env v hasThis Γ e) (hs : e.typ.sort = Prelude.refSort) (note : String) :
    Obliges Δ env (Inside Δ env v hasThis Γ₀ Γ) (inReads v reads e note) := by
  cases reads with
  | none => exact .nil
  | some frame =>
    obtain ⟨a, ha, hsorted⟩ := h
    obtain ⟨c, hc, hcs⟩ := frameContains_sorted (o := a) hΔ (hreads frame rfl)
    refine ⟨_, by rw [inReads]; exact ha.bind (hc.bind rfl), fun o ho G hG => ?_⟩
    obtain rfl := List.mem_singleton.1 ho
    exact hcs G hG.2 ((hsorted G hG.1).trans (congrArg some hs))

theorem lengthOf_sorted (hΔ : Δ.Operations) (h : LowersSorted Δ env v hasThis Γ e)
    (ht : e.typ.IsSliced) :
    ∃ a, (lengthOf v e).Returns env a ∧ SortedAs Δ env v hasThis Γ a .int := by
  obtain ⟨a, ha, hsorted⟩ := h
  unfold lengthOf
  cases htyp : e.typ <;> simp only [htyp, Typ.IsSliced] at ht hsorted ⊢
  case seq =>
    exact ⟨_, ha.bind rfl, fun G hG => Expr.sort?_app hΔ.seqLength (.cons (hsorted G hG) .nil)⟩
  case array =>
    exact ⟨_, ha.bind (Heap.returns_arrayLength.2 rfl), fun G hG =>
      Expr.sort?_app hΔ.arrayLength (.cons (hsorted G hG) .nil)⟩

theorem arrayRead_sorted (hΔ : Δ.Operations) {limits : Limits}
    (hreads : ReadsSorted Δ env v hasThis Γ₀ limits.reads)
    (h : LowersSorted Δ env v hasThis Γ e) :
    Obliges Δ env (Inside Δ env v hasThis Γ₀ Γ) (arrayRead v limits e) := by
  unfold arrayRead
  split
  · rename_i elem htyp
    have hs : e.typ.sort = Prelude.refSort := by rw [htyp]; rfl
    exact ((nonNull_sorted h hs).imp fun G hG => hG.1).append (inReads_sorted hΔ hreads h hs _)
  · exact .nil

theorem sort?_inRange {G : Sorts} {i n : IL.Expr} (hi : i.sort? Δ G = some .int)
    (hn : n.sort? Δ G = some .int) : (inRange i n).sort? Δ G = some .bool :=
  Expr.sort?_conj₂ (Expr.sort?_le (Expr.sort?_nat 0) hi) (Expr.sort?_lt hi hn)

theorem ofIndex_sorted (hΔ : Δ.Operations) {limits : Limits}
    (hreads : ReadsSorted Δ env v hasThis Γ₀ limits.reads) {coll idx : Source.Expr} {result : Typ}
    (htyp : coll.typ.Indexes idx.typ result) (hcoll : LowersSorted Δ env v hasThis Γ coll)
    (hidx : LowersSorted Δ env v hasThis Γ idx) :
    Obliges Δ env (Inside Δ env v hasThis Γ₀ Γ) (ofIndex v limits coll idx) := by
  have hrange : coll.typ.IsSliced → idx.typ.sort = .int →
      Obliges Δ env (Inside Δ env v hasThis Γ₀ Γ) (do
        let readable ← arrayRead v limits coll
        let i ← lowerExpr v idx
        let length ← lengthOf v coll
        return readable ++ [⟨inRange i length, indexMessage idx.span⟩]) := by
    intro hsliced hint
    obtain ⟨os, hos, hsorted⟩ := arrayRead_sorted hΔ hreads hcoll
    obtain ⟨i, hi, his⟩ := hidx
    obtain ⟨n, hn, hns⟩ := lengthOf_sorted hΔ hcoll hsliced
    refine ⟨_, hos.bind (hi.bind (hn.bind rfl)), List.forall_mem_append.2 ⟨hsorted, ?_⟩⟩
    intro o ho G hG
    obtain rfl := List.mem_singleton.1 ho
    exact sort?_inRange ((his G hG.1).trans (congrArg some hint)) (hns G hG.1)
  unfold ofIndex
  split
  · rename_i elem heq
    rw [heq] at htyp
    exact hrange (by simp [heq, Typ.IsSliced]) htyp.1
  · rename_i elem heq
    rw [heq] at htyp
    exact hrange (by simp [heq, Typ.IsSliced]) htyp.1
  · rename_i key value heq
    rw [heq] at htyp
    obtain ⟨i, hi, his⟩ := hidx
    obtain ⟨c, hc, hcs⟩ := hcoll
    refine ⟨_, hi.bind (hc.bind rfl), fun o ho G hG => ?_⟩
    obtain rfl := List.mem_singleton.1 ho
    have hmap : c.sort? Δ G = some Prelude.mapSort := (hcs G hG.1).trans (by rw [heq]; rfl)
    have hdomain : (Prelude.mapDomain c).sort? Δ G = some Prelude.setSort :=
      Expr.sort?_app hΔ.mapDomain (.cons hmap .nil)
    have hkey := Boxing.sort?_box hΔ (Boxing.sort?_convert hΔ htyp.1 (his G hG.1))
    exact Expr.sort?_app hΔ.setMem (.cons hdomain (.cons hkey .nil))
  · exact .nil

/-- What the lower bound of a slice needs, given its value if there is one. -/
def lowerBound (lo : Option Source.Expr) (l : Option IL.Expr) (length : IL.Expr) :
    List Obligation :=
  match lo, l with
  | some e, some x =>
    [⟨.conj [.le (.nat 0) x, .le x length], .error "lower bound out of range" e.span⟩]
  | _, _ => []

theorem ofSlice_sorted (hΔ : Δ.Operations) {limits : Limits}
    (hreads : ReadsSorted Δ env v hasThis Γ₀ limits.reads) {coll : Source.Expr}
    {lo hi : Option Source.Expr} (hsliced : coll.typ.IsSliced)
    (hcoll : LowersSorted Δ env v hasThis Γ coll)
    (hlo : ∀ e ∈ lo, e.typ.sort = .int ∧ LowersSorted Δ env v hasThis Γ e)
    (hhi : ∀ e ∈ hi, e.typ.sort = .int ∧ LowersSorted Δ env v hasThis Γ e) :
    Obliges Δ env (Inside Δ env v hasThis Γ₀ Γ) (ofSlice v limits coll lo hi) := by
  obtain ⟨os, hos, hsorted⟩ := arrayRead_sorted hΔ hreads hcoll
  obtain ⟨n, hn, hns⟩ := lengthOf_sorted hΔ hcoll hsliced
  obtain ⟨l, hl, -, hls⟩ := lowerExpr?_sorted (fun e he => (hlo e he).2) fun e he => (hlo e he).1
  have hfloor : SortedAs Δ env v hasThis Γ (l.getD (.nat 0)) .int := by
    cases l with
    | none => exact fun G _ => rfl
    | some x => exact hls x rfl
  have hbetween : ∀ {a b : IL.Expr} {G}, a.sort? Δ G = some .int → b.sort? Δ G = some .int →
      Inside Δ env v hasThis Γ₀ Γ G →
        (IL.Expr.conj [.le a b, .le b n]).sort? Δ G = some .bool := fun ha hb hG =>
    Expr.sort?_conj₂ (Expr.sort?_le ha hb) (Expr.sort?_le hb (hns _ hG.1))
  have hlower : ∀ o ∈ lowerBound lo l n, ∀ G, Inside Δ env v hasThis Γ₀ Γ G →
      o.cond.sort? Δ G = some .bool := by
    intro o ho G hG
    unfold lowerBound at ho
    split at ho
    · obtain rfl := List.mem_singleton.1 ho
      exact hbetween (Expr.sort?_nat 0) (hls _ rfl G hG.1) hG
    · cases ho
  cases hi with
  | none =>
    refine ⟨_, by rw [ofSlice]; exact hos.bind (hn.bind (hl.bind rfl)), ?_⟩
    exact List.forall_mem_append.2 ⟨List.forall_mem_append.2 ⟨hsorted, hlower⟩, by simp⟩
  | some e =>
    obtain ⟨hint, x, hx, hxs⟩ := hhi e rfl
    refine ⟨_, by rw [ofSlice]; exact hos.bind (hn.bind (hl.bind (hx.bind rfl))), ?_⟩
    refine List.forall_mem_append.2 ⟨List.forall_mem_append.2 ⟨hsorted, hlower⟩, ?_⟩
    intro o ho G hG
    obtain rfl := List.mem_singleton.1 ho
    exact hbetween (hfloor G hG.1) ((hxs G hG.1).trans (congrArg some hint)) hG

end Obligation

/-! ## Contracts and measures -/

/-- The contract of a function is well typed over its receiver and its parameters. -/
structure Source.Function.ContractTyped (c : Context) (D : Discipline) (f : Function) : Prop where
  nodup : (f.params.map (·.1)).Nodup
  params : ∀ b ∈ f.params, D.binder b.1
  requires : ∀ r ∈ f.requires, r.expr.typ.sort = .bool ∧
    WellTyped c D f.owner.isSome (Typing.bind f.params fun _ => none) r.expr
  reads : ∀ e ∈ f.reads, e.typ.IsFrame ∧
    WellTyped c D f.owner.isSome (Typing.bind f.params fun _ => none) e
  decreases : ∀ d ∈ f.decreases, ∀ e ∈ d.exprs,
    WellTyped c D f.owner.isSome (Typing.bind f.params fun _ => none) e

/-- Values for the receiver and the parameters of a function. -/
def BindsFormals (Δ : Vocabulary) (P : Sorts → Prop) (f : Function) (bs : List (String × IL.Expr)) :
    Prop :=
  ∀ G, P G → List.Forall₂ (fun b s => b.1 = s.1 ∧ b.2.sort? Δ G = some s.2) bs
    (f.thisBinder ++ sortBinders f.params)

theorem calleeBindings_sorted (hΔ : Δ.Operations) {D : Discipline} {f : Function}
    {r : Option Source.Expr} {es : List Source.Expr}
    (hr : ∀ e ∈ r, LowersSorted Δ env v hasThis Γ e)
    (hrecv : ∀ e ∈ r, e.typ.sort = Prelude.refSort)
    (hthis : f.owner.isSome → r = none → hasThis = true)
    (hes : ∀ e ∈ es, LowersSorted Δ env v hasThis Γ e) (hpass : D.Passes es f.params) :
    ∃ bs, (Obligation.calleeBindings v f.owner f.params r es).Returns env bs ∧
      BindsFormals Δ (Scope Δ env v hasThis Γ) f bs := by
  obtain ⟨recv, hrecvs, hrs⟩ := receiverArgs_sorted f.owner hr hrecv hthis
  obtain ⟨rest, hrest, hass⟩ := lowerArgs_sorted hΔ hes hpass
  refine ⟨_, returns_calleeBindings.2 ⟨recv, hrecvs, rest, hrest, rfl⟩, fun G hG => ?_⟩
  refine List.rel_append ?_ ?_
  · unfold Function.thisBinder
    split at hrs
    · rename_i howner
      rw [if_pos howner]
      obtain ⟨a, as, ha, has, rfl⟩ := List.forall₂_cons_right_iff.1 hrs
      obtain rfl := List.forall₂_nil_right_iff.1 has
      exact .cons ⟨rfl, ha G hG⟩ .nil
    · rename_i howner
      rw [if_neg howner]
      obtain rfl := List.forall₂_nil_right_iff.1 hrs
      exact .nil
  · clear hrest hpass
    generalize f.params = params at hass
    induction params generalizing rest with
    | nil => exact .nil
    | cons b params ih =>
      obtain ⟨a, as, ha, has, rfl⟩ := List.forall₂_cons_right_iff.1 hass
      exact .cons ⟨rfl, ha G hG⟩ (ih _ has)

/-- What is Boolean over the formals of a function is so below bindings for them. -/
theorem BindsFormals.sort?_lets (hS : Signed Δ env) (hv : v.Apart) {f : Function}
    {bs : List (String × IL.Expr)} {a : IL.Expr} {s : Srt}
    (hparams : ∀ b ∈ f.params, ¬ Reserved env v.callee b.1)
    (hbs : BindsFormals Δ (Scope Δ env v hasThis Γ) f bs)
    (ha : SortedAs Δ env v.callee f.owner.isSome (Typing.bind f.params fun _ => none) a s) :
    SortedAs Δ env v hasThis Γ (.lets bs a) s := fun G hG =>
  Expr.sort?_lets (hbs G hG) (ha _ (hG.callee hS hv hparams))

section

variable {f : Function} {bs : List (String × IL.Expr)} {v₀ : View}

/-- The expressions of a contract are lowered to expressions of their sorts. -/
theorem Source.Function.ContractTyped.lowers (hS : Signed Δ env) (hv : v₀.Of v) {a : Source.Expr}
    (h : WellTyped env.context (.contract env v₀) f.owner.isSome
      (Typing.bind f.params fun _ => none) a) :
    LowersSorted Δ env v.callee f.owner.isSome (Typing.bind f.params fun _ => none) a :=
  lowerExpr_sorted hS h fun _ hx hr => hx.1 (hv.callee.reserved hr)

theorem Source.Function.ContractTyped.param (hv : v₀.Of v)
    (hf : f.ContractTyped env.context (.contract env v₀)) :
    ∀ b ∈ f.params, ¬ Reserved env v.callee b.1 :=
  fun b hb hr => (hf.params b hb).1 (hv.callee.reserved hr)

namespace Obligation

/-- The preconditions of a callee are Boolean. -/
theorem preconditions_sorted (hS : Signed Δ env) (hv : v₀.Of v) (hapart : v.Apart)
    (hf : f.ContractTyped env.context (.contract env v₀))
    (hbs : BindsFormals Δ (Scope Δ env v hasThis Γ) f bs) (span : Span) :
    Obliges Δ env (Scope Δ env v hasThis Γ) (preconditions v.callee span bs f.requires) := by
  have hreq : ∀ r ∈ f.requires.filter fun r => !r.free, r ∈ f.requires :=
    fun r hr => List.mem_of_mem_filter hr
  unfold preconditions
  generalize f.requires.filter (fun r => !r.free) = rs at hreq
  suffices h : ∃ os, List.Forall₂ (fun r o => (do
        let cond ← lowerExpr v.callee r.expr
        return ⟨.lets bs cond, .precondition "possible violation of function precondition" span
          r.expr.span⟩ : ExprM Obligation).Returns env o) rs os ∧
      ∀ o ∈ os, ∀ G, Scope Δ env v hasThis Γ G → o.cond.sort? Δ G = some .bool by
    obtain ⟨os, hos, hsorted⟩ := h
    exact ⟨os, ExprM.returns_mapM.2 hos, hsorted⟩
  induction rs with
  | nil => exact ⟨[], .nil, by simp⟩
  | cons r rs ih =>
    obtain ⟨hr, hreq⟩ := List.forall_mem_cons.1 hreq
    obtain ⟨os, hos, hsorted⟩ := ih hreq
    obtain ⟨hbool, htyped⟩ := hf.requires r hr
    obtain ⟨a, ha, has⟩ := Function.ContractTyped.lowers hS hv htyped
    refine ⟨_ :: os, .cons (ha.bind rfl) hos, List.forall_mem_cons.2 ⟨?_, hsorted⟩⟩
    exact hbs.sort?_lets hS hapart (hf.param hv) (hbool ▸ has)

/-- That a callee's reads are included in those of the caller is Boolean. -/
theorem readsIncluded_sorted (hS : Signed Δ env) (hv : v₀.Of v) (hapart : v.Apart)
    (hf : f.ContractTyped env.context (.contract env v₀))
    (hreads : ReadsSorted Δ env v hasThis Γ₀ reads) (hΓ : Γ Naming.objVar = none)
    (hΓ₀ : Γ₀ Naming.objVar = none)
    (hbs : BindsFormals Δ (Scope Δ env v hasThis Γ) f bs) (span : Span) :
    Obliges Δ env (Inside Δ env v hasThis Γ₀ Γ)
      (readsIncluded v v.callee span bs f.reads reads) := by
  have hΔ := hS.covers.operations
  cases reads with
  | none => exact .nil
  | some frame =>
    unfold readsIncluded
    simp only
    split
    · exact .nil
    obtain ⟨inner, hinner, hinners⟩ := frameContains_sorted (v := v.callee) (o := Heap.obj) hΔ
      fun e he => ⟨(hf.reads e he).1, Function.ContractTyped.lowers hS hv (hf.reads e he).2⟩
    obtain ⟨outer, houter, houters⟩ := frameContains_sorted (o := Heap.obj) hΔ (hreads frame rfl)
    refine ⟨_, hinner.bind (houter.bind rfl), fun o ho G hG => ?_⟩
    obtain rfl := List.mem_singleton.1 ho
    have hobj : (Function.update G Naming.objVar (some Prelude.refSort)) Naming.objVar =
        some Prelude.refSort := Function.update_self ..
    have hscope := hG.1.object hS hapart hΓ
    -- No parameter is called like the variable over objects.
    have hkeep : Sorts.bind (f.thisBinder ++ sortBinders f.params)
        (Function.update G Naming.objVar (some Prelude.refSort)) Naming.objVar =
        some Prelude.refSort := by
      refine (Sorts.bind_of_notMem fun hmem => ?_).trans hobj
      rw [List.map_append, sortBinders_names, List.mem_append] at hmem
      rcases hmem with hmem | hmem
      · unfold Function.thisBinder at hmem
        split at hmem <;> simp [Naming.objVar, Naming.this] at hmem
      · obtain ⟨b, hb, hname⟩ := List.mem_map.1 hmem
        exact (hf.params b hb).2 hname
    have hlets := Expr.sort?_lets (hbs _ hscope)
      (hinners _ (hscope.callee hS hapart (hf.param hv)) hkeep)
    have hmatrix := Expr.sort?_imp hlets (houters _ (hG.2.object hS hapart hΓ₀) hobj)
    show (IL.Expr.all [(Naming.objVar, Prelude.refSort)] [] _).sort? Δ G = some .bool
    exact Expr.sort?_all hmatrix (List.forall_mem_nil _)

end Obligation

end

end

/-! ## Descent -/

/-- The sort of a component of a measure. -/
def MeasureValue.sort (m : MeasureValue) : Srt := if m.everIncreasing then .int else m.typ.sort

namespace Termination

variable {Δ : Vocabulary} {G : Sorts} {o n : MeasureValue} {order : Order}

theorem sort_of_order? (h : order? o = some order) : o.sort = order.sort := by
  unfold order? at h
  unfold MeasureValue.sort
  split at h
  · rename_i hgrow
    cases h
    rw [if_pos hgrow]
    rfl
  · rename_i hgrow
    rw [if_neg hgrow]
    split at h <;> cases h <;> simp_all [Order.sort, Typ.sort]

theorem sort?_less (hΔ : Δ.Operations) (hnull : G "null" = some Prelude.refSort) {a b : IL.Expr}
    (ha : a.sort? Δ G = some order.sort) (hb : b.sort? Δ G = some order.sort) :
    (less order a b).sort? Δ G = some .bool := by
  have hproper : ∀ {sub eq : String} {s : Srt} {x y : IL.Expr},
      Δ.func sub = some ([s, s], .bool) → Δ.func eq = some ([s, s], .bool) →
      x.sort? Δ G = some s → y.sort? Δ G = some s →
        (IL.Expr.conj [.app sub [x, y], (IL.Expr.app eq [x, y]).neg]).sort? Δ G = some .bool :=
    fun hsub heq hx hy => Expr.sort?_conj₂ (Expr.sort?_app hsub (.cons hx (.cons hy .nil)))
      (Expr.sort?_neg (Expr.sort?_app heq (.cons hx (.cons hy .nil))))
  cases order with
  | bool => exact Expr.sort?_conj₂ (Expr.sort?_neg hb) ha
  | int => exact Expr.sort?_lt hb ha
  | growing => exact Expr.sort?_lt ha hb
  | seq =>
    exact Expr.sort?_lt (Expr.sort?_app hΔ.seqLength (.cons hb .nil))
      (Expr.sort?_app hΔ.seqLength (.cons ha .nil))
  | datatype =>
    exact Expr.sort?_lt (Expr.sort?_app hΔ.dtRank (.cons hb .nil))
      (Expr.sort?_app hΔ.dtRank (.cons ha .nil))
  | set => exact hproper hΔ.setSubset hΔ.setEqual hb ha
  | multiset => exact hproper hΔ.multisetSubset hΔ.multisetEqual hb ha
  | map =>
    exact hproper hΔ.setSubset hΔ.setEqual (Expr.sort?_app hΔ.mapDomain (.cons hb .nil))
      (Expr.sort?_app hΔ.mapDomain (.cons ha .nil))
  | ref => exact Expr.sort?_conj₂ (Expr.sort?_eq hb hnull) (Expr.sort?_ne ha hnull)

theorem sort?_unchanged (hΔ : Δ.Operations) (hcommon : commonOrder? o n = some order)
    (ho : o.expr.sort? Δ G = some o.sort) (hn : n.expr.sort? Δ G = some n.sort) :
    (unchanged o n).sort? Δ G = some .bool := by
  obtain ⟨hoo, hno⟩ := orders_of_common hcommon
  have hsort : n.sort = o.sort := (sort_of_order? hno).trans (sort_of_order? hoo).symm
  rw [hsort] at hn
  unfold unchanged
  split
  · exact Expr.sort?_eq ho hn
  · rename_i hgrow
    simp only [MeasureValue.sort, hgrow, Bool.false_eq_true, if_false] at ho hn
    exact sort?_typedEq hΔ hn ho

/-- That a measure went down is Boolean. -/
theorem sort?_decreases (hΔ : Δ.Operations) (hnull : G "null" = some Prelude.refSort)
    (allowEqual : Bool) {olds news : List MeasureValue}
    (holds : ∀ o ∈ olds, o.expr.sort? Δ G = some o.sort)
    (hnews : ∀ n ∈ news, n.expr.sort? Δ G = some n.sort) :
    (decreases allowEqual olds news).sort? Δ G = some .bool := by
  induction olds generalizing news with
  | nil => rfl
  | cons o olds ih =>
    cases news with
    | nil => rfl
    | cons n news =>
      obtain ⟨ho, holds⟩ := List.forall_mem_cons.1 holds
      obtain ⟨hn, hnews⟩ := List.forall_mem_cons.1 hnews
      rw [decreases]
      split
      · rfl
      · rename_i order hcommon
        obtain ⟨hoo, hno⟩ := orders_of_common hcommon
        have hless := sort?_less hΔ hnull (sort_of_order? hoo ▸ ho) (sort_of_order? hno ▸ hn)
        exact Expr.sort?_disj₂ hless
          (Expr.sort?_conj₂ (sort?_unchanged hΔ hcommon ho hn) (ih holds hnews))

/-- That integer components are bounded is Boolean. -/
theorem sort?_bounds (hΔ : Δ.Operations) {before : List IL.Expr} {olds news : List MeasureValue}
    (hbefore : ∀ e ∈ before, e.sort? Δ G = some .bool)
    (holds : ∀ o ∈ olds, o.expr.sort? Δ G = some o.sort)
    (hnews : ∀ n ∈ news, n.expr.sort? Δ G = some n.sort) :
    ∀ e ∈ bounds before olds news, e.sort? Δ G = some .bool := by
  induction olds generalizing news before with
  | nil => simp [bounds]
  | cons o olds ih =>
    cases news with
    | nil => simp [bounds]
    | cons n news =>
      obtain ⟨ho, holds⟩ := List.forall_mem_cons.1 holds
      obtain ⟨hn, hnews⟩ := List.forall_mem_cons.1 hnews
      rw [bounds]
      split
      · simp
      · rename_i order hcommon
        obtain ⟨hoo, hno⟩ := orders_of_common hcommon
        have hsame := sort?_unchanged hΔ hcommon ho hn
        refine List.forall_mem_append.2 ⟨?_, ih (List.forall_mem_append.2
          ⟨hbefore, by simpa using hsame⟩) holds hnews⟩
        split
        · rename_i hint
          subst hint
          rw [sort_of_order? hoo] at ho
          rw [sort_of_order? hno] at hn
          intro e he
          obtain rfl := List.mem_singleton.1 he
          refine Expr.sort?_imp (Expr.sort?_conj (List.forall_mem_append.2 ⟨hbefore, ?_⟩))
            (Expr.sort?_le (Expr.sort?_nat 0) hn)
          simpa using Expr.sort?_lt hn ho
        · simp

end Termination

section

variable {Δ : Vocabulary} {env : Env} {v v₀ : View} {hasThis : Bool} {Γ Γ₀ : Typing}
  {f : Function} {bs : List (String × IL.Expr)}

/-- The measure of a function is well typed over its formals. -/
theorem measure_typed {D : Discipline} (hf : f.ContractTyped env.context D) :
    ∀ m ∈ (Measure.ofMember f.decreases f.span f.params).exprs, ∃ e, m = .expr e ∧
      WellTyped env.context D f.owner.isSome (Typing.bind f.params fun _ => none) e := by
  unfold Measure.ofMember
  split
  · rename_i d hd
    intro m hm
    obtain ⟨e, he, rfl⟩ := List.mem_map.1 hm
    exact ⟨e, rfl, hf.decreases d hd e he⟩
  · intro m hm
    obtain ⟨b, hb, rfl⟩ := List.mem_map.1 hm
    have hmem : b ∈ f.params := List.mem_of_find?_eq_some (Option.mem_toList.1 hb)
    exact ⟨_, rfl, .var (Typing.bind_of_nodup hf.nodup hmem)⟩

/-- The value of a component of a measure. -/
def measureValue (v : View) : MeasureExpr → ExprM MeasureValue
  | .expr e => return ⟨e.typ, ← lowerExpr v e, false⟩
  | .yields counter => return ⟨.int, .var counter, true⟩

/-- The values of a callee's measure at the arguments of a call have their sorts. -/
theorem measureValues_sorted (hS : Signed Δ env) (hv : v₀.Of v) (hapart : v.Apart)
    (hf : f.ContractTyped env.context (.contract env v₀))
    (hbs : BindsFormals Δ (Scope Δ env v hasThis Γ) f bs) :
    ∃ vs, (Termination.values v.callee (Measure.ofMember f.decreases f.span f.params)).Returns env
      vs ∧ ∀ m ∈ Termination.bindValues bs vs, SortedAs Δ env v hasThis Γ m.expr m.sort := by
  have htyped := measure_typed hf
  generalize (Measure.ofMember f.decreases f.span f.params) = measure at htyped
  obtain ⟨ms, inferred, wildcard⟩ := measure
  unfold Termination.values
  simp only at htyped ⊢
  suffices h : ∃ vs, List.Forall₂ (fun m o => (measureValue v.callee m).Returns env o) ms vs ∧
      ∀ m ∈ Termination.bindValues bs vs, SortedAs Δ env v hasThis Γ m.expr m.sort by
    obtain ⟨vs, hvs, hsorted⟩ := h
    exact ⟨vs, ExprM.returns_mapM.2 hvs, hsorted⟩
  induction ms with
  | nil => exact ⟨[], .nil, by simp [Termination.bindValues]⟩
  | cons m ms ih =>
    obtain ⟨⟨e, rfl, he⟩, hrest⟩ := List.forall_mem_cons.1 htyped
    obtain ⟨vs, hvs, hsorted⟩ := ih hrest
    obtain ⟨a, ha, has⟩ := Function.ContractTyped.lowers hS hv he
    refine ⟨⟨e.typ, a, false⟩ :: vs, .cons (ha.bind rfl) hvs, List.forall_mem_cons.2 ⟨?_, hsorted⟩⟩
    exact hbs.sort?_lets hS hapart (hf.param hv) has

/-- What a call into the recursion has to satisfy is Boolean. -/
theorem descentObligations_sorted (hS : Signed Δ env) (hv : v₀.Of v) (hapart : v.Apart)
    (hf : f.ContractTyped env.context (.contract env v₀)) {entry : Option Termination.Entry}
    {P : Sorts → Prop} (hP : ∀ G, P G → Scope Δ env v hasThis Γ G)
    (holds : ∀ en ∈ entry, ∀ o ∈ en.olds, ∀ G, P G → o.expr.sort? Δ G = some o.sort)
    (hbs : BindsFormals Δ (Scope Δ env v hasThis Γ) f bs) (p : Path) (span : Span) :
    Obliges Δ env P (descentObligations v entry f p bs span) := by
  have hΔ := hS.covers.operations
  cases entry with
  | none => exact .nil
  | some entry =>
    obtain ⟨vs, hvs, hnews⟩ := measureValues_sorted hS hv hapart hf hbs
    have hchecks : ∃ cs, (Termination.callChecks v.callee entry p
        (Measure.ofMember f.decreases f.span f.params) bs span).Returns env cs ∧
        ∀ c ∈ cs, ∀ G, P G → c.1.sort? Δ G = some .bool := by
      simp only [Termination.callChecks, ExprM.returns_bind, ExprM.returns_inSameComponent,
        ExprM.returns_isRecursive, exists_eq_left]
      split
      · exact ⟨[], rfl, by simp⟩
      refine ⟨_, hvs.bind rfl, List.forall_mem_cons.2 ⟨fun G hG => ?_, fun c hc G hG => ?_⟩⟩
      · exact Termination.sort?_decreases hΔ (hP G hG).null false
          (fun o ho => holds entry rfl o ho G hG) fun n hn => hnews n hn G (hP G hG)
      · obtain ⟨b, hb, rfl⟩ := List.mem_map.1 hc
        have hbounds := Termination.sort?_bounds hΔ (G := G) (List.forall_mem_nil _)
          (fun o ho => holds entry rfl o ho G hG) fun n hn => hnews n hn G (hP G hG)
        unfold Termination.bounded? at hb
        split at hb
        · cases hb
        · obtain rfl := Option.mem_some.1 (Option.mem_toList.1 hb)
          exact Expr.sort?_conj hbounds
    obtain ⟨cs, hcs, hsorted⟩ := hchecks
    refine ⟨_, hcs.bind rfl, fun o ho => ?_⟩
    obtain ⟨c, hc, rfl⟩ := List.mem_map.1 ho
    exact hsorted c hc

end

/-! ## The outermost operation -/

/-- The limits of the enclosing member are well typed: its reads clause, and the values of its
measure on entry. -/
structure Limits.Typed (Δ : Vocabulary) (env : Env) (v : View) (hasThis : Bool) (Γ₀ : Typing)
    (limits : Limits) : Prop where
  reads : ∀ frame ∈ limits.reads, ∀ e ∈ frame, e.typ.IsFrame ∧
    WellTyped env.context (.lowering env v) hasThis Γ₀ e
  olds : ∀ entry ∈ limits.termination, ∀ o ∈ entry.olds,
    SortedAs Δ env v hasThis Γ₀ o.expr o.sort
  object : Γ₀ Naming.objVar = none

/-- What the checks of an expression start from. -/
structure Checkable (Δ : Vocabulary) (env : Env) (v : View) (hasThis : Bool) (Γ₀ : Typing)
    (limits : Limits) : Prop where
  signed : Signed Δ env
  apart : v.Apart
  contracts : ∀ p f, env.context.function p = .ok f →
    f.ContractTyped env.context (.contract env v)
  limits : limits.Typed Δ env v hasThis Γ₀

section

variable {Δ : Vocabulary} {env : Env} {v v₀ : View} {hasThis : Bool} {Γ Γ₀ : Typing}
  {limits : Limits} {e : Source.Expr}

/-- The names of an expression and of the limits are in scope, in the current and the old view. -/
theorem Inside.of {G : Sorts} (h : Inside Δ env v₀ hasThis Γ₀ Γ G) (hv : v₀.Of v) :
    Inside Δ env v hasThis Γ₀ Γ G :=
  ⟨h.1.of hv, h.2.of hv⟩

theorem Checkable.readsSorted (h : Checkable Δ env v₀ hasThis Γ₀ limits) (hv : v₀.Of v) :
    ReadsSorted Δ env v hasThis Γ₀ limits.reads := fun frame hframe e he =>
  ⟨(h.limits.reads frame hframe e he).1, lowerExpr_sorted h.signed
    (h.limits.reads frame hframe e he).2 fun _ hx hr => hx (hv.reserved hr)⟩

/-- Well-typed expressions whose bound variables hide nothing are lowered to their sorts. -/
theorem Source.WellTyped.lowers (hS : Signed Δ env) (hv : v₀.Of v)
    (he : WellTyped env.context (.checking env v₀ Γ₀) hasThis Γ e) :
    LowersSorted Δ env v hasThis Γ e :=
  lowerExpr_sorted hS he fun _ hx hr => hx.1 (hv.reserved hr)

/-- What a call needs is Boolean. -/
theorem ofCall_sorted (h : Checkable Δ env v₀ hasThis Γ₀ limits) (hv : v₀.Of v)
    (hΓ : Γ Naming.objVar = none) {p : Path} {r : Option Source.Expr} {es : List Source.Expr}
    {f : Function} (hf : env.context.function p = .ok f)
    (hthis : f.owner.isSome → r = none → hasThis = true)
    (hrecv : ∀ x ∈ r, x.typ.sort = Prelude.refSort)
    (hargs : (Discipline.checking env v₀ Γ₀).Passes es f.params)
    (hr : ∀ x ∈ r, LowersSorted Δ env v hasThis Γ x)
    (hes : ∀ x ∈ es, LowersSorted Δ env v hasThis Γ x) (span : Span) :
    Obliges Δ env (Inside Δ env v₀ hasThis Γ₀ Γ) (Obligation.ofCall v limits span p r es) := by
  have hS := h.signed
  have hΔ := hS.covers.operations
  have hapart := h.apart.of hv
  have hcontract := h.contracts p f hf
  have hscope : ∀ G, Inside Δ env v₀ hasThis Γ₀ Γ G → Scope Δ env v hasThis Γ G :=
    fun G hG => hG.1.of hv
  have hinside : ∀ G, Inside Δ env v₀ hasThis Γ₀ Γ G → Inside Δ env v hasThis Γ₀ Γ G :=
    fun G hG => hG.of hv
  obtain ⟨bs, hbs, hbinds⟩ := calleeBindings_sorted hΔ hr hrecv hthis hes hargs
  have hthere : Obliges Δ env (Scope Δ env v hasThis Γ) (receiverObligations v r) := by
    cases r with
    | none => exact .nil
    | some x => exact Obligation.nonNull_sorted (hr x rfl) (hrecv x rfl)
  obtain ⟨there, hthere, h₁⟩ := hthere.imp hscope
  obtain ⟨nats, hnats, h₂⟩ := (Obligation.natArgs_sorted hes hargs).imp hscope
  obtain ⟨pre, hpre, h₃⟩ := (Obligation.preconditions_sorted hS hv hapart hcontract hbinds
    span).imp hscope
  obtain ⟨reads, hreads, h₄⟩ := (Obligation.readsIncluded_sorted hS hv hapart hcontract
    (h.readsSorted hv) hΓ h.limits.object hbinds span).imp hinside
  obtain ⟨down, hdown, h₅⟩ := descentObligations_sorted hS hv hapart hcontract hscope
    (fun en hen o ho G hG => h.limits.olds en hen o ho G hG.2) hbinds p span
  refine ⟨_, returns_ofCall.2 ⟨f, hf, there, hthere, nats, hnats, bs, hbs, pre, hpre, reads, hreads,
    down, hdown, rfl⟩, ?_⟩
  simp only [List.forall_mem_append]
  exact ⟨⟨⟨⟨h₁, h₂⟩, h₃⟩, h₄⟩, h₅⟩

/-- What the outermost operation of a well-typed expression needs is Boolean. -/
theorem nodeObligations_sorted (h : Checkable Δ env v₀ hasThis Γ₀ limits) (hv : v₀.Of v)
    (hΓ : Γ Naming.objVar = none)
    (he : WellTyped env.context (.checking env v₀ Γ₀) hasThis Γ e) :
    Obliges Δ env (Inside Δ env v₀ hasThis Γ₀ Γ) (nodeObligations v limits e) := by
  have hS := h.signed
  have hΔ := hS.covers.operations
  have hreads := h.readsSorted hv
  have hscope : ∀ G, Inside Δ env v₀ hasThis Γ₀ Γ G → Scope Δ env v hasThis Γ G :=
    fun G hG => hG.1.of hv
  have hinside : ∀ G, Inside Δ env v₀ hasThis Γ₀ Γ G → Inside Δ env v hasThis Γ₀ Γ G :=
    fun G hG => hG.of hv
  have hlower : ∀ {x}, WellTyped env.context (.checking env v₀ Γ₀) hasThis Γ x →
      LowersSorted Δ env v hasThis Γ x := fun hx => hx.lowers hS hv
  cases he with
  | @field _ i e fid f hfield hobj htyp he =>
    have hthere := (Obligation.nonNull_sorted (hlower he) hobj).imp hscope
    rw [nodeObligations]
    obtain ⟨reads, termination⟩ := limits
    cases reads with
    | none =>
      obtain ⟨os, hos, hsorted⟩ := hthere
      exact ⟨os, hos.bind rfl, hsorted⟩
    | some frame =>
      obtain ⟨os, hos, hsorted⟩ := hthere
      obtain ⟨rs, hrs, hrsorted⟩ := (Obligation.inReads_sorted hΔ hreads (hlower he) hobj
        "insufficient reads clause to read field").imp hinside
      cases hmut : f.isMutable with
      | true =>
        refine ⟨os ++ rs, hos.bind (ExprM.Returns.bind (ExprM.returns_field.2 hfield) ?_),
          List.forall_mem_append.2 ⟨hsorted, hrsorted⟩⟩
        simp only [hmut, if_true]
        exact hrs.bind rfl
      | false =>
        refine ⟨os, hos.bind (ExprM.Returns.bind (ExprM.returns_field.2 hfield) ?_), hsorted⟩
        simp [hmut]
  | index htyp ha hb =>
    exact (Obligation.ofIndex_sorted hΔ hreads htyp (hlower ha) (hlower hb)).imp hinside
  | slice hcoll htyp hint he hlo hhi =>
    exact (Obligation.ofSlice_sorted hΔ hreads hcoll (hlower he)
      (fun x hx => ⟨hint x (.inl hx), hlower (hlo x hx)⟩)
      (fun x hx => ⟨hint x (.inr hx), hlower (hhi x hx)⟩)).imp hinside
  | @update _ i e k w hcoll htyp he hk hw =>
    obtain ⟨a, ha, has⟩ := hlower he
    obtain ⟨b, hb, hbs⟩ := hlower hk
    rw [nodeObligations]
    split
    · rename_i elem heq
      rw [heq] at hcoll has
      refine ⟨_, hb.bind (ha.bind rfl), fun o ho G hG => ?_⟩
      obtain rfl := List.mem_singleton.1 ho
      exact Obligation.sort?_inRange ((hbs G (hscope G hG)).trans (congrArg some hcoll.1))
        (Expr.sort?_app hΔ.seqLength (.cons (has G (hscope G hG)) .nil))
    · exact .nil
  | arrayLength harray htyp he => exact (Obligation.nonNull_sorted (hlower he) harray).imp hscope
  | ctor hd hctor htyp hargs hes =>
    obtain ⟨os, hos, hsorted⟩ :=
      (Obligation.natArgs_sorted (fun x hx => hlower (hes x hx)) hargs).imp hscope
    exact ⟨os, ExprM.Returns.bind (ExprM.returns_datatype.2 hd) (ExprM.Returns.bind hctor hos),
      hsorted⟩
  | @destruct _ i e dt k f d ctor b hd hctor hfield hvalue htyp he =>
    obtain ⟨a, ha, has⟩ := hlower he
    obtain ⟨hmem, rfl⟩ := Datatype.mem_of_ctor hctor
    rw [nodeObligations]
    by_cases hlen : d.ctors.length > 1
    · refine ⟨_, ExprM.Returns.bind (ExprM.returns_datatype.2 hd)
        (by simp only [hlen, if_true]; exact ha.bind rfl), fun o ho G hG => ?_⟩
      obtain rfl := List.mem_singleton.1 ho
      exact WhereClause.sort?_isCtor hS hd hmem
        ((has G (hscope G hG)).trans (congrArg some hvalue))
    · exact ⟨[], ExprM.Returns.bind (ExprM.returns_datatype.2 hd) (by simp [hlen]), by simp⟩
  | @binary _ i op a b htyp ha hb =>
    have hdiv : b.typ.sort = .int → Obliges Δ env (Inside Δ env v₀ hasThis Γ₀ Γ) (do
        let x ← lowerExpr v b
        return [⟨.ne x (.nat 0), .error "possible division by zero" b.span⟩]) := by
      intro hint
      obtain ⟨x, hx, hxs⟩ := hlower hb
      refine ⟨_, hx.bind rfl, fun o ho G hG => ?_⟩
      obtain rfl := List.mem_singleton.1 ho
      exact Expr.sort?_ne ((hxs G (hscope G hG)).trans (congrArg some hint)) (Expr.sort?_nat 0)
    cases op with
    | div => exact hdiv htyp.2.1
    | mod => exact hdiv htyp.2.1
    | _ => exact .nil
  | call hf hthis hrecv hargs htyp hr hes =>
    exact ofCall_sorted h hv hΓ hf hthis hrecv hargs (fun x hx => hlower (hr x hx))
      (fun x hx => hlower (hes x hx)) _
  | _ => exact .nil

/-- The fact that a call was made is Boolean. -/
theorem canCallFact?_sorted (hS : Signed Δ env) (hv : v₀.Of v)
    (he : WellTyped env.context (.checking env v₀ Γ₀) hasThis Γ e) :
    ∃ o, (canCallFact? v e).Returns env o ∧
      ∀ a ∈ o, SortedAs Δ env v hasThis Γ a .bool := by
  cases he with
  | @call _ i p r es f hf hthis hrecv hargs htyp hr hes =>
    obtain ⟨recv, hrs, hrecvs⟩ := receiverArgs_sorted f.owner
      (fun x hx => (hr x hx).lowers hS hv) hrecv hthis
    obtain ⟨rest, has, hass⟩ := lowerArgs_sorted hS.covers.operations
      (fun x hx => (hes x hx).lowers hS hv) hargs
    have hvalues := returns_lowerCallArgs.2 ⟨f, hf, recv, hrs, rest, has, rfl⟩
    refine ⟨_, hvalues.bind rfl, fun a ha G hG => ?_⟩
    obtain rfl := Option.mem_some.1 ha
    have hdecl := hS.covers.functions p f hf (.canCall, .bool) (by simp [Function.layers])
    exact Expr.sort?_app hdecl (callArgs_sorted hrecvs hass hG)
  | _ => exact ⟨none, rfl, by simp⟩

end

end ContractLowering
