import ContractLowering.Proofs.IL.Free
import ContractLowering.Proofs.Lowering.FunctionReads
import ContractLowering.Proofs.Lowering.Reported
import ContractLowering.Proofs.Source.Semantics

/-!
# Obligations that compare with the values on entry

The body of a function is checked against its reads clause and its measure. Both are written into
every obligation that compares with them, below the frames of the bound variables around it, and
they are meant as on entry. `Obligation.Says` spells out what an obligation then says. It does say
that if no frame binds a free name of what the clause and the measure are lowered to
(`body_on_entry`). A bound variable with the name of a parameter is taken for the parameter
otherwise (`reads_of_shadowed`).
-/

namespace ContractLowering

open IL Source Model

variable {M : Model} {old ρ σ τ σ' : M.Valuation} {env : Env} {limits : Limits} {v w : View}

/-! ## What frames bind -/

namespace Frame

/-- The names that a frame binds. -/
def binds : Frame → List String
  | .guard _ => []
  | .bind bindings => bindings.map (·.1)
  | .forAll binders _ => binders.map (·.1)

@[simp] theorem binds_guard (c : IL.Expr) : (guard c).binds = [] := rfl

variable {frame : Frame} {frames : List Frame} {x : String}

theorem Enters.of_notMem (h : frame.Enters old σ σ') (hx : x ∉ frame.binds) : σ' x = σ x := by
  cases frame with
  | guard cond => rw [h.2]
  | bind bindings =>
    obtain rfl := h
    exact bind_of_notMem (by simpa [binds, Function.comp_def] using hx)
  | forAll binders wheres => exact h.1.of_notMem hx

/-- Names that no frame binds have the same value below the frames. -/
theorem Reached.of_notMem (h : Reached old frames ρ σ) (hx : ∀ f ∈ frames, x ∉ f.binds) :
    σ x = ρ x := by
  induction frames generalizing σ with
  | nil => exact congrFun h x
  | cons frame frames ih =>
    obtain ⟨τ, hτ, henters⟩ := h
    obtain ⟨hframe, hframes⟩ := List.forall_mem_cons.1 hx
    exact (henters.of_notMem hframe).trans (ih hτ hframes)

end Frame

/-- A name is bound somewhere in an expression. -/
inductive Source.Expr.Binds (x : String) : Source.Expr → Prop
  | here {e names a} (h : (names, a) ∈ e.parts) (hx : x ∈ names) : Binds x e
  | inside {e names a} (h : (names, a) ∈ e.parts) (hx : Binds x a) : Binds x e

theorem Source.Expr.binds_iff {x : String} {e : Source.Expr} :
    e.Binds x ↔ ∃ p ∈ e.parts, x ∈ p.1 ∨ p.2.Binds x := by
  constructor
  · rintro (⟨h, hx⟩ | ⟨h, hx⟩)
    · exact ⟨_, h, .inl hx⟩
    · exact ⟨_, h, .inr hx⟩
  · rintro ⟨p, hp, hx | hx⟩
    · exact .here hp hx
    · exact .inside hp hx

theorem Source.Expr.part_of_operand {e a : Source.Expr} (h : a ∈ e.operands) :
    ([], a) ∈ e.parts := by
  cases e with
  | binary i op a b =>
    simp only [operands] at h
    split at h <;> simp_all [parts]
  | mapDisplay i kvs =>
    simp only [operands, List.mem_flatMap] at h
    obtain ⟨p, hp, ha⟩ := h
    simp only [parts, List.mem_append, List.mem_map]
    simp only [List.mem_cons, List.not_mem_nil, or_false] at ha
    obtain rfl | rfl := ha
    · exact .inl ⟨p, hp, rfl⟩
    · exact .inr ⟨p, hp, rfl⟩
  | letIn i bs b =>
    obtain ⟨p, hp, rfl⟩ := List.mem_map.1 h
    exact List.mem_cons_of_mem _ (List.mem_map.2 ⟨p, hp, rfl⟩)
  | _ => simp_all [operands, parts]

theorem binds_ofBinders {bs : List Source.Binder} {f : Frame}
    (h : (Frame.ofBinders v bs).Returns env f) : f.binds = bs.map (·.1) := by
  simp only [Frame.ofBinders, ExprM.returns_bind, ExprM.returns_pure] at h
  obtain ⟨w, -, rfl⟩ := h
  exact sortBinders_names bs

/-- The values of a let are bound to its names. -/
theorem names_of_lowerBindings {bs : List (String × Source.Expr)} {values : List (String × IL.Expr)}
    (h : (lowerBindings v bs).Returns env values) : values.map (·.1) = bs.map (·.1) := by
  induction bs generalizing values with
  | nil =>
    obtain rfl := ExprM.returns_pure.1 h
    rfl
  | cons b bs ih =>
    simp only [lowerBindings, ExprM.returns_bind, ExprM.returns_pure] at h
    obtain ⟨x, -, rest, hrest, rfl⟩ := h
    simp [ih hrest]

theorem names_of_caseBindings {d : Datatype} {dt : Path} {p : Pattern} {s : IL.Expr}
    {bs : List (String × IL.Expr)} (h : (caseBindings d dt p s).Returns env bs) :
    ∀ b ∈ bs, b.1 ∈ p.binders.map (·.1) := by
  simp only [caseBindings, ExprM.returns_bind, ExprM.returns_pure] at h
  obtain ⟨c, -, rfl⟩ := h
  intro b hb
  obtain ⟨q, hq, rfl⟩ := List.mem_map.1 hb
  exact List.mem_map_of_mem (List.of_mem_zip hq).1

/-- The frames before a part bind what is bound there. -/
theorem Inner.binds {e a : Source.Expr} {fs : List Frame} (h : Inner env v e w fs a) :
    ∃ names, (names, a) ∈ e.parts ∧ ∀ f ∈ fs, ∀ x ∈ f.binds, x ∈ names := by
  cases h with
  | operand ha => exact ⟨[], Source.Expr.part_of_operand ha, by simp⟩
  | old => exact ⟨[], by simp [Source.Expr.parts], by simp⟩
  | second => exact ⟨[], by simp [Source.Expr.parts], by simp⟩
  | @quantRange _ _ bs _ _ _ _ _ hf | @quantBody _ _ bs _ _ _ _ hf
  | @quantRanged _ _ bs _ _ _ _ _ _ hf | @setRange _ bs _ _ _ hf
  | @setTerm _ bs _ _ _ _ hf =>
    exact ⟨bs.map (·.1), by simp [Source.Expr.parts], by simp [binds_ofBinders hf]⟩
  | @mapRange _ b _ _ _ hf | @mapTerm _ b _ _ _ _ hf =>
    exact ⟨[b.1], by simp [Source.Expr.parts], by simp [binds_ofBinders hf]⟩
  | @letBody _ bs _ values hbs =>
    refine ⟨bs.map (·.1), List.mem_cons_self .., List.forall_mem_singleton.2 fun x hx => ?_⟩
    exact names_of_lowerBindings hbs ▸ hx
  | thn | els => exact ⟨[], by simp [Source.Expr.parts], by simp⟩
  | @arm _ _ _ _ _ _ _ _ p _ bindings ht hd hc hs hfind hbs =>
    refine ⟨p.binders.map (·.1), List.mem_cons_of_mem _
      (List.mem_map.2 ⟨(p, a), List.mem_of_find?_eq_some hfind, rfl⟩), ?_⟩
    refine List.forall_mem_cons.2 ⟨fun x hx => ?_, by simp⟩
    obtain ⟨q, hq, rfl⟩ := List.mem_map.1 hx
    exact names_of_caseBindings hbs q hq

/-- The frames that lead to where an evaluation comes to bind what is bound in the expression. -/
theorem Evaluates.binds {e n : Source.Expr} {fs : List Frame} (h : Evaluates env v e w fs n) :
    ∀ f ∈ fs, ∀ x ∈ f.binds, e.Binds x := by
  induction h with
  | here => simp
  | inside hi _ ih =>
    obtain ⟨names, hpart, hnames⟩ := hi.binds
    refine List.forall_mem_append.2 ⟨fun f hf x hx => .inside hpart (ih f hf x hx), ?_⟩
    exact fun f hf x hx => .here hpart (hnames f hf x hx)

/-! ## Reads clauses -/

/-- An object is, or is a member of, the value of an entry of a reads clause. -/
def IL.Model.Contains (M : Model) (t : Typ) (e o : M.Val) : Prop :=
  match t with
  | .set _ => M.truth (M.app "Set.mem" [e, M.app Prelude.BoxSort.ref.boxName [o]])
  | .multiset _ =>
    0 < M.toInt (M.app "MultiSet.Multiplicity" [e, M.app Prelude.BoxSort.ref.boxName [o]])
  | .seq _ => M.truth (M.app "Seq.Contains" [e, M.app Prelude.BoxSort.ref.boxName [o]])
  | _ => o = e

theorem holds_frameEntry_iff {t : Typ} {o e : IL.Expr} :
    Holds old σ (frameEntry o t e) ↔ M.Contains t (e.eval old σ) (o.eval old σ) := by
  cases t <;>
    simp [frameEntry, Model.Contains, holds_app, Prelude.setMem, Prelude.multiplicity,
      Prelude.seqContains, Boxing.boxRef]

/-- An object is in a reads clause, in a state. -/
def InClause (env : Env) (v : View) (clause : List Source.Expr) (old ρ : M.Valuation)
    (o : M.Val) : Prop :=
  ∃ r ∈ clause, ∃ x, (lowerExpr v r).Returns env x ∧ M.Contains r.typ (x.eval old ρ) o

theorem holds_frameContains_iff {clause : List Source.Expr} {o cond : IL.Expr}
    (h : (frameContains v clause o).Returns env cond) :
    Holds old σ cond ↔ InClause env v clause old σ (o.eval old σ) := by
  obtain ⟨as, has, rfl⟩ := returns_frameContains.1 h
  rw [holds_disj]
  constructor
  · rintro ⟨a, ha, hholds⟩
    obtain ⟨r, hr, x, hx, rfl⟩ := exists_of_forall₂ has ha
    exact ⟨r, hr, x, hx, holds_frameEntry_iff.1 hholds⟩
  · rintro ⟨r, hr, x, hx, hcontains⟩
    obtain ⟨a, ha, x', hx', rfl⟩ := exists_of_forall₂ has.flip hr
    obtain rfl := hx.unique hx'
    exact ⟨_, ha, holds_frameEntry_iff.2 hcontains⟩

/-! ## Measures -/

/-- In `τ` an expression stands for the value that another one, for the same component of a
measure, has in `σ`. -/
structure MeasureValue.Stands (old σ τ : M.Valuation) (a b : MeasureValue) : Prop where
  typ : b.typ = a.typ
  grows : b.everIncreasing = a.everIncreasing
  eval : b.expr.eval old τ = a.expr.eval old σ

namespace Termination

variable {o o' n n' : MeasureValue} {os os' ns ns' : List MeasureValue}

theorem holds_less_congr {order : Order} {o n o' n' : IL.Expr} (hnull : τ "null" = σ "null")
    (ho : o'.eval old τ = o.eval old σ) (hn : n'.eval old τ = n.eval old σ) :
    Holds old σ (less order o n) ↔ Holds old τ (less order o' n') := by
  cases order with
  | bool =>
    simp only [less, holds_conj, List.forall_mem_cons, holds_neg]
    simp [Holds, ho, hn]
  | _ =>
    simp [less, Prelude.seqLength, Prelude.dtRank, Prelude.setSubset, Prelude.setEqual,
      Prelude.multisetSubset, Prelude.multisetEqual, Prelude.mapDomain, Prelude.null, IL.Expr.ne,
      holds_app, ho, hn, hnull]

theorem holds_typedEq_congr {t : Typ} {a b a' b' : IL.Expr} (ha : a'.eval old τ = a.eval old σ)
    (hb : b'.eval old τ = b.eval old σ) :
    Holds old σ (typedEq t a b) ↔ Holds old τ (typedEq t a' b') := by
  cases t <;>
    simp [typedEq, Prelude.setEqual, Prelude.multisetEqual, Prelude.seqEqual, Prelude.mapEqual,
      holds_app, ha, hb]

theorem holds_unchanged_congr (ho : MeasureValue.Stands old σ τ o o')
    (hn : MeasureValue.Stands old σ τ n n') :
    Holds old σ (unchanged o n) ↔ Holds old τ (unchanged o' n') := by
  unfold unchanged
  rw [ho.grows, ho.typ]
  split
  · simp [ho.eval, hn.eval]
  · exact holds_typedEq_congr hn.eval ho.eval

theorem order?_stands (ho : MeasureValue.Stands old σ τ o o') : order? o' = order? o := by
  unfold order?
  rw [ho.typ, ho.grows]

theorem commonOrder?_stands (ho : MeasureValue.Stands old σ τ o o')
    (hn : MeasureValue.Stands old σ τ n n') : commonOrder? o' n' = commonOrder? o n := by
  unfold commonOrder?
  rw [order?_stands ho, order?_stands hn]

/-- Comparing measures depends on their values only. -/
theorem holds_decreases_congr {allowEqual : Bool} (hnull : τ "null" = σ "null")
    (hos : List.Forall₂ (MeasureValue.Stands old σ τ) os os')
    (hns : List.Forall₂ (MeasureValue.Stands old σ τ) ns ns') :
    Holds old σ (decreases allowEqual os ns) ↔ Holds old τ (decreases allowEqual os' ns') := by
  induction hos generalizing ns ns' with
  | nil => cases allowEqual <;> simp [decreases]
  | cons ho _ ih =>
    cases hns with
    | nil => simp [decreases]
    | cons hn hns =>
      rw [decreases, decreases, commonOrder?_stands ho hn]
      split
      · simp
      · simp [holds_less_congr hnull ho.eval hn.eval, holds_unchanged_congr ho hn, ih hns]

theorem holds_conj_congr {es es' : List IL.Expr}
    (h : List.Forall₂ (fun a b => Holds old σ a ↔ Holds old τ b) es es') :
    Holds old σ (.conj es) ↔ Holds old τ (.conj es') := by
  rw [holds_conj, holds_conj]
  induction h with
  | nil => simp
  | cons hab _ ih => rw [List.forall_mem_cons, List.forall_mem_cons, hab, ih]

/-- So does bounding them. -/
theorem holds_bounds_congr (hnull : τ "null" = σ "null") {before before' : List IL.Expr}
    (hbefore : List.Forall₂ (fun a b => Holds old σ a ↔ Holds old τ b) before before')
    (hos : List.Forall₂ (MeasureValue.Stands old σ τ) os os')
    (hns : List.Forall₂ (MeasureValue.Stands old σ τ) ns ns') :
    List.Forall₂ (fun a b => Holds old σ a ↔ Holds old τ b) (bounds before os ns)
      (bounds before' os' ns') := by
  induction hos generalizing ns ns' before before' with
  | nil => cases hns <;> exact .nil
  | cons ho _ ih =>
    cases hns with
    | nil => exact .nil
    | cons hn hns =>
      rw [bounds, bounds, commonOrder?_stands ho hn]
      split
      · exact .nil
      · have hrest := ih (List.rel_append hbefore (.cons (holds_unchanged_congr ho hn) .nil)) hns
        split
        · refine .cons ?_ hrest
          have hless : Holds old σ (less .int _ _) ↔ Holds old τ (less .int _ _) :=
            holds_less_congr hnull ho.eval hn.eval
          have hdown : List.Forall₂ (fun a b => Holds old σ a ↔ Holds old τ b)
              (before ++ [.lt _ _]) (before' ++ [.lt _ _]) :=
            List.rel_append hbefore (.cons hless .nil)
          simp only [holds_imp, holds_conj_congr hdown]
          simp [hn.eval]
        · exact hrest

/-- That the integer components of a measure stay bounded, which is trivial if there are none. -/
def staysBounded (olds news : List MeasureValue) : IL.Expr := (bounded? olds news).getD .tt

theorem staysBounded_eq (os ns : List MeasureValue) :
    staysBounded os ns = if bounds [] os ns = [] then .tt else .conj (bounds [] os ns) := by
  unfold staysBounded bounded?
  cases bounds [] os ns <;> rfl

theorem holds_staysBounded_iff : Holds old σ (staysBounded os ns) ↔
    Holds old σ (.conj (bounds [] os ns)) := by
  rw [staysBounded_eq]
  split
  · rename_i hnil
    simp [hnil]
  · rfl

theorem holds_staysBounded_congr (hnull : τ "null" = σ "null")
    (hos : List.Forall₂ (MeasureValue.Stands old σ τ) os os')
    (hns : List.Forall₂ (MeasureValue.Stands old σ τ) ns ns') :
    Holds old σ (staysBounded os ns) ↔ Holds old τ (staysBounded os' ns') := by
  rw [holds_staysBounded_iff, holds_staysBounded_iff]
  exact holds_conj_congr (holds_bounds_congr hnull .nil hos hns)

/-- What the formula `F` says of the values of `os` in `ρ` and of `ns` in `σ`, whatever expressions
they are given by, in whatever state `τ`. -/
def Compares (old ρ σ : M.Valuation) (F : List MeasureValue → List MeasureValue → IL.Expr)
    (os ns : List MeasureValue) : Prop :=
  ∀ (τ : M.Valuation) os' ns', τ "null" = σ "null" →
    List.Forall₂ (MeasureValue.Stands old ρ τ) os os' →
    List.Forall₂ (MeasureValue.Stands old σ τ) ns ns' → Holds old τ (F os' ns')

/-- If the old values are the same as in `ρ`, this is what the formula says in `σ`. -/
theorem holds_iff_compares {F : List MeasureValue → List MeasureValue → IL.Expr}
    (hF : ∀ (τ : M.Valuation) os' ns', τ "null" = σ "null" →
      List.Forall₂ (MeasureValue.Stands old σ τ) os os' →
      List.Forall₂ (MeasureValue.Stands old σ τ) ns ns' →
        (Holds old σ (F os ns) ↔ Holds old τ (F os' ns')))
    (hos : ∀ o ∈ os, o.expr.eval old σ = o.expr.eval old ρ) :
    Holds old σ (F os ns) ↔ Compares old ρ σ F os ns := by
  have hsame : List.Forall₂ (MeasureValue.Stands old ρ σ) os os :=
    List.forall₂_same.2 fun o ho => ⟨rfl, rfl, hos o ho⟩
  constructor
  · intro h τ os' ns' hnull hos' hns'
    refine (hF τ os' ns' hnull ?_ hns').1 h
    refine ((List.forall₂_and_left _ _).2 ⟨hos, hos'⟩).imp fun o o' h => ?_
    exact ⟨h.2.typ, h.2.grows, h.2.eval.trans h.1.symm⟩
  · exact fun h => h σ os ns rfl hsame (List.forall₂_same.2 fun n _ => ⟨rfl, rfl, rfl⟩)

end Termination

/-! ## Obligations -/

/-- The object from which the outermost operation of an expression reads. -/
def Source.Expr.readObject? : Source.Expr → Option Source.Expr
  | .field _ obj _ => some obj
  | .index _ coll _ | .slice _ coll _ _ => some coll
  | _ => none

namespace Obligation

/-- What an obligation of an operation says in a state `σ`. If it compares with what the enclosing
member restricts, this has its value in the state `ρ` on entry: an object that is read is in the
reads clause there, so is whatever a callee may read, and the callee's measure is below the one
there. -/
inductive Says (env : Env) (v : View) (limits : Limits) (old ρ σ : M.Valuation) (n : Source.Expr)
    (o : Obligation) : Prop → Prop
  | missing {span ctor} (ho : o = missingCase span ctor) : Says env v limits old ρ σ n o False
  | defined {os} (hos : (nodeObligations v {} n).Returns env os) (ho : o ∈ os) :
      Says env v limits old ρ σ n o (Holds old σ o.cond)
  | read {clause obj note os x} (hclause : limits.reads = some clause)
      (hobj : n.readObject? = some obj) (hos : (inReads v limits.reads obj note).Returns env os)
      (ho : o ∈ os) (hx : (lowerExpr v obj).Returns env x) :
      Says env v limits old ρ σ n o (InClause env v clause old ρ (x.eval old σ))
  | called {clause i f receiver args callee bs os inner} (hclause : limits.reads = some clause)
      (hn : n = .call i f receiver args) (hcallee : env.context.function f = .ok callee)
      (hbs : (calleeBindings v callee.owner callee.params receiver args).Returns env bs)
      (hos : (readsIncluded v v.callee i.span bs callee.reads limits.reads).Returns env os)
      (ho : o ∈ os) (hinner : (frameContains v.callee callee.reads Heap.obj).Returns env inner) :
      Says env v limits old ρ σ n o (∀ a, M.carrier Prelude.refSort a →
        Holds old (Function.update σ Naming.objVar a) (.lets bs inner) →
          InClause env v clause old ρ a)
  | descends {entry i f receiver args callee bs os news F}
      (hentry : limits.termination = some entry) (hn : n = .call i f receiver args) (hcallee : env.context.function f = .ok callee)
      (hbs : (calleeBindings v callee.owner callee.params receiver args).Returns env bs)
      (hos : (descentObligations v limits.termination callee f bs i.span).Returns env os)
      (ho : o ∈ os) (hnews : (Termination.values v.callee
        (.ofMember callee.decreases callee.span callee.params)).Returns env news)
      (hF : F = Termination.decreases false ∨ F = Termination.staysBounded)
      (hcond : o.cond = F entry.olds (Termination.bindValues bs news)) :
      Says env v limits old ρ σ n o
        (Termination.Compares old ρ σ F entry.olds (Termination.bindValues bs news))

end Obligation

/-- What a member restricts has the values in `σ` that it has in `ρ`, also where an object is
bound. -/
structure Limits.Kept (env : Env) (v : View) (limits : Limits) (old ρ σ : M.Valuation) : Prop where
  reads : ∀ clause ∈ limits.reads, ∀ r ∈ clause, ∀ x, (lowerExpr v r).Returns env x →
    x.eval old σ = x.eval old ρ ∧ ∀ a, x.eval old (Function.update σ Naming.objVar a) = x.eval old ρ
  measure : ∀ entry ∈ limits.termination, ∀ o ∈ entry.olds, o.expr.eval old σ = o.expr.eval old ρ

theorem InClause.congr {clause : List Source.Expr} {o : M.Val}
    (h : ∀ r ∈ clause, ∀ x, (lowerExpr v r).Returns env x → x.eval old σ = x.eval old ρ) :
    InClause env v clause old σ o ↔ InClause env v clause old ρ o := by
  refine exists_congr fun r => and_congr_right fun hr => exists_congr fun x =>
    and_congr_right fun hx => ?_
  rw [h r hr x hx]

namespace Obligation

variable {n : Source.Expr} {o : Obligation}

/-- An obligation that says something holds if that is true. -/
def Means (env : Env) (v : View) (limits : Limits) (old ρ σ : M.Valuation) (n : Source.Expr)
    (o : Obligation) : Prop :=
  ∃ P, Says env v limits old ρ σ n o P ∧ (Holds old σ o.cond ↔ P)

theorem Means.defined {os : List Obligation} (hos : (nodeObligations v {} n).Returns env os)
    (ho : o ∈ os) : Means env v limits old ρ σ n o := ⟨_, .defined hos ho, .rfl⟩

theorem Means.read (hkept : limits.Kept env v old ρ σ) {obj : Source.Expr} {note : String}
    {os : List Obligation} (hobj : n.readObject? = some obj)
    (hos : (inReads v limits.reads obj note).Returns env os) (ho : o ∈ os) :
    Means env v limits old ρ σ n o := by
  obtain ⟨reads, termination⟩ := limits
  cases reads with
  | none =>
    obtain rfl := ExprM.returns_pure.1 hos
    cases ho
  | some clause =>
    have hos' := hos
    simp only [inReads, ExprM.returns_bind, ExprM.returns_pure] at hos'
    obtain ⟨x, hx, cond, hcond, rfl⟩ := hos'
    obtain rfl := List.mem_singleton.1 ho
    refine ⟨_, .read rfl hobj hos ho hx, ?_⟩
    rw [holds_frameContains_iff hcond]
    exact InClause.congr fun r hr y hy => (hkept.reads clause rfl r hr y hy).1

theorem Means.called (hkept : limits.Kept env v old ρ σ) {i : Info} {f : Path}
    {receiver : Option Source.Expr} {args : List Source.Expr} {callee : Function}
    {bs : List (String × IL.Expr)} {os : List Obligation}
    (hcallee : env.context.function f = .ok callee)
    (hbs : (calleeBindings v callee.owner callee.params receiver args).Returns env bs)
    (hos : (readsIncluded v v.callee i.span bs callee.reads limits.reads).Returns env os)
    (ho : o ∈ os) : Means env v limits old ρ σ (.call i f receiver args) o := by
  obtain ⟨reads, termination⟩ := limits
  cases reads with
  | none =>
    obtain rfl := ExprM.returns_pure.1 hos
    cases ho
  | some clause =>
    have hos' := hos
    simp only [readsIncluded] at hos'
    split at hos'
    · obtain rfl := ExprM.returns_pure.1 hos'
      cases ho
    · simp only [ExprM.returns_bind, ExprM.returns_pure] at hos'
      obtain ⟨inner, hinner, outer, houter, rfl⟩ := hos'
      obtain rfl := List.mem_singleton.1 ho
      refine ⟨_, .called rfl rfl hcallee hbs hos ho hinner, ?_⟩
      have hobject (a : M.Val) : Holds old (Function.update σ Naming.objVar a) outer ↔
          InClause env v clause old ρ a := by
        rw [holds_frameContains_iff houter, Heap.obj, Expr.eval_var, Function.update_self]
        exact InClause.congr fun r hr y hy => (hkept.reads clause rfl r hr y hy).2 a
      rw [holds_all]
      constructor
      · intro hall a ha hinside
        exact (hobject a).1 ((holds_imp _ _).1 (hall _ (assigns_cons.2 ⟨a, ha, assigns_nil.2 rfl⟩))
          hinside)
      · intro hall τ hτ
        obtain ⟨a, ha, hnil⟩ := assigns_cons.1 hτ
        obtain rfl := assigns_nil.1 hnil
        exact (holds_imp _ _).2 fun hinside => (hobject a).2 (hall a ha hinside)

theorem Means.descends (hkept : limits.Kept env v old ρ σ) {i : Info} {f : Path}
    {receiver : Option Source.Expr} {args : List Source.Expr} {callee : Function}
    {bs : List (String × IL.Expr)} {os : List Obligation}
    (hcallee : env.context.function f = .ok callee)
    (hbs : (calleeBindings v callee.owner callee.params receiver args).Returns env bs)
    (hos : (descentObligations v limits.termination callee f bs i.span).Returns env os)
    (ho : o ∈ os) : Means env v limits old ρ σ (.call i f receiver args) o := by
  obtain ⟨reads, termination⟩ := limits
  cases termination with
  | none =>
    obtain rfl := ExprM.returns_pure.1 hos
    cases ho
  | some entry =>
    have hos' := hos
    simp only [descentObligations, Termination.callChecks, ExprM.returns_bind,
      ExprM.returns_pure] at hos'
    obtain ⟨checks, ⟨inRecursion, -, recursive, -, hchecks⟩, rfl⟩ := hos'
    split at hchecks
    · obtain rfl := ExprM.returns_pure.1 hchecks
      cases ho
    · simp only [ExprM.returns_bind, ExprM.returns_pure] at hchecks
      obtain ⟨news, hnews, rfl⟩ := hchecks
      rw [List.map_cons] at ho
      have holds := hkept.measure entry rfl
      rcases List.mem_cons.1 ho with rfl | hbounded
      · exact ⟨_, .descends rfl rfl hcallee hbs hos ho hnews (.inl rfl) rfl,
          Termination.holds_iff_compares (fun _ _ _ => Termination.holds_decreases_congr) holds⟩
      · simp only [List.map_map, List.mem_map, Option.mem_toList, Function.comp_def] at hbounded
        obtain ⟨b, hb, rfl⟩ := hbounded
        have hcond : b = Termination.staysBounded entry.olds (Termination.bindValues bs news) := by
          rw [Termination.staysBounded, hb, Option.getD_some]
        exact ⟨_, .descends rfl rfl hcallee hbs hos ho hnews (.inr rfl) hcond, by
          rw [show Obligation.cond ⟨b, _⟩ = _ from hcond]
          exact Termination.holds_iff_compares (fun _ _ _ => Termination.holds_staysBounded_congr)
            holds⟩

/-- What reading from an array needs is that it is there, and that it may be read. -/
theorem arrayRead_split {coll : Source.Expr} {os : List Obligation}
    (h : (arrayRead v limits coll).Returns env os) :
    ∃ there allowed, (arrayRead v {} coll).Returns env there ∧ os = there ++ allowed ∧
      (allowed = [] ∨ (inReads v limits.reads coll
        "insufficient reads clause to read array element").Returns env allowed) := by
  unfold arrayRead at h ⊢
  split at h
  · simp only [ExprM.returns_bind, ExprM.returns_pure] at h ⊢
    obtain ⟨there, hthere, allowed, hallowed, rfl⟩ := h
    exact ⟨there, allowed, ⟨there, hthere, [], rfl, (List.append_nil _).symm⟩, rfl, .inr hallowed⟩
  · obtain rfl := ExprM.returns_pure.1 h
    exact ⟨[], [], rfl, rfl, .inl rfl⟩

/-- What an obligation of an array read means. -/
theorem means_of_arrayRead (hkept : limits.Kept env v old ρ σ) {coll : Source.Expr}
    (hobj : n.readObject? = some coll) {readable rest : List Obligation}
    (hreadable : (arrayRead v limits coll).Returns env readable)
    (hplain : ∀ there, (arrayRead v {} coll).Returns env there →
      (nodeObligations v {} n).Returns env (there ++ rest)) (ho : o ∈ readable ++ rest) :
    Means env v limits old ρ σ n o := by
  obtain ⟨there, allowed, hthere, rfl, hallowed⟩ := arrayRead_split hreadable
  have hdefined := hplain there hthere
  rw [List.append_assoc] at ho
  rcases List.mem_append.1 ho with ho | ho
  · exact .defined hdefined (List.mem_append_left _ ho)
  · rcases List.mem_append.1 ho with ho | ho
    · rcases hallowed with rfl | hallowed
      · cases ho
      · exact .read hkept hobj hallowed ho
    · exact .defined hdefined (List.mem_append_right _ ho)

/-- What the obligations of an operation mean. -/
theorem means_of_node (hkept : limits.Kept env v old ρ σ) {os : List Obligation}
    (hos : (nodeObligations v limits n).Returns env os) (ho : o ∈ os) :
    Means env v limits old ρ σ n o := by
  cases n with
  | field i obj fid =>
    rw [nodeObligations] at hos
    obtain ⟨there, hthere, hos⟩ := ExprM.returns_bind.1 hos
    have hplain : (nodeObligations v {} (.field i obj fid)).Returns env there := by
      rw [nodeObligations]
      exact ExprM.returns_bind.2 ⟨there, hthere, rfl⟩
    split at hos
    · obtain rfl := ExprM.returns_pure.1 hos
      exact .defined hplain ho
    · simp only [ExprM.returns_bind] at hos
      obtain ⟨f, -, hos⟩ := hos
      split at hos
      · simp only [ExprM.returns_bind, ExprM.returns_pure] at hos
        obtain ⟨allowed, hallowed, rfl⟩ := hos
        rcases List.mem_append.1 ho with ho | ho
        · exact .defined hplain ho
        · exact .read hkept rfl hallowed ho
      · obtain rfl := ExprM.returns_pure.1 hos
        exact .defined hplain ho
  | index i coll idx =>
    cases htyp : coll.typ with
    | seq | array =>
      simp only [nodeObligations, ofIndex, htyp, ExprM.returns_bind, ExprM.returns_pure] at hos
      obtain ⟨readable, hreadable, x, hx, length, hlength, rfl⟩ := hos
      refine means_of_arrayRead hkept rfl hreadable (fun there hthere => ?_) ho
      simp only [nodeObligations, ofIndex, htyp, ExprM.returns_bind, ExprM.returns_pure]
      exact ⟨there, hthere, x, hx, length, hlength, rfl⟩
    | _ =>
      have hdefined : (nodeObligations v {} (.index i coll idx)).Returns env os := by
        simpa only [nodeObligations, ofIndex, htyp] using hos
      exact .defined hdefined ho
  | slice i coll lo hi =>
    cases hi with
    | none =>
      simp only [nodeObligations, ofSlice, ExprM.returns_bind, ExprM.returns_pure] at hos
      obtain ⟨readable, hreadable, length, hlength, l, hl, _, rfl, rfl⟩ := hos
      rw [List.append_assoc] at ho
      refine means_of_arrayRead hkept rfl hreadable (fun there hthere => ?_) ho
      simp only [nodeObligations, ofSlice, ExprM.returns_bind, ExprM.returns_pure]
      exact ⟨there, hthere, length, hlength, l, hl, [], rfl, (List.append_assoc ..).symm⟩
    | some e =>
      simp only [nodeObligations, ofSlice, ExprM.returns_bind, ExprM.returns_pure] at hos
      obtain ⟨readable, hreadable, length, hlength, l, hl, x, hx, _, rfl, rfl⟩ := hos
      rw [List.append_assoc] at ho
      refine means_of_arrayRead hkept rfl hreadable (fun there hthere => ?_) ho
      simp only [nodeObligations, ofSlice, ExprM.returns_bind, ExprM.returns_pure]
      exact ⟨there, hthere, length, hlength, l, hl, x, hx, _, rfl, (List.append_assoc ..).symm⟩
  | binary i op a b => cases op <;> exact .defined hos ho
  | call i f receiver args =>
    obtain ⟨callee, hcallee, there, hthere, nats, hnats, bs, hbs, pre, hpre, reads, hreads, down,
      hdown, rfl⟩ := returns_ofCall.1 hos
    have hplain : (nodeObligations v {} (.call i f receiver args)).Returns env
        (there ++ nats ++ pre ++ [] ++ []) :=
      returns_ofCall.2 ⟨callee, hcallee, there, hthere, nats, hnats, bs, hbs, pre, hpre, [], rfl,
        [], rfl, rfl⟩
    rcases List.mem_append.1 ho with ho | ho
    · rcases List.mem_append.1 ho with ho | ho
      · exact .defined hplain (by simpa using ho)
      · exact .called hkept hcallee hbs hreads ho
    · exact .descends hkept hcallee hbs hdown ho
  | _ => exact .defined hos ho

end Obligation

/-! ## Obligations of a body -/

/-- No frame binds a free name of what the member restricts is lowered to, and objects are bound by
another name. -/
structure Limits.Apart (env : Env) (v : View) (limits : Limits) (frames : List Frame) : Prop where
  reads : ∀ clause ∈ limits.reads, ∀ r ∈ clause, ∀ x, (lowerExpr v r).Returns env x →
    ∀ y ∈ x.free, y ≠ Naming.objVar ∧ ∀ f ∈ frames, y ∉ f.binds
  measure : ∀ entry ∈ limits.termination, ∀ o ∈ entry.olds, ∀ y ∈ o.expr.free,
    ∀ f ∈ frames, y ∉ f.binds

/-- What no frame captures has its value on entry below the frames. -/
theorem Limits.Apart.kept {frames : List Frame} (h : limits.Apart env v frames)
    (hσ : Frame.Reached old frames ρ σ) : limits.Kept env v old ρ σ where
  reads clause hclause r hr x hx := by
    have hfree := h.reads clause hclause r hr x hx
    refine ⟨Expr.eval_congr_free fun y hy => hσ.of_notMem (hfree y hy).2, fun a => ?_⟩
    refine Expr.eval_congr_free fun y hy => ?_
    rw [Function.update_of_ne (hfree y hy).1]
    exact hσ.of_notMem (hfree y hy).2
  measure entry hentry o ho :=
    Expr.eval_congr_free fun y hy => hσ.of_notMem (h.measure entry hentry o ho y hy)

/-- A function has one state, so the view does not change. -/
theorem Evaluates.view_eq {e n : Source.Expr} {fs : List Frame} (h : Evaluates env v e w fs n)
    (hv : v.old = v) : w = v := by
  induction h with
  | here => rfl
  | inside hi _ ih =>
    cases hi with
    | old => exact (ih (by rw [hv, hv])).trans hv
    | _ => exact ih hv

/-- The frames above an obligation bind what is bound in the expression. -/
theorem Reported.binds {e n : Source.Expr} {fs : List Frame} {o : Obligation}
    (h : Reported env limits v e w fs n o) : ∀ f ∈ fs, ∀ x ∈ f.binds, e.Binds x := by
  cases h with
  | node hn => exact hn.binds
  | missing hn => exact List.forall_mem_cons.2 ⟨by simp, hn.binds⟩

/-- What is reported for a body that binds no free name of what the member restricts. -/
theorem Reported.apart {e n : Source.Expr} {fs : List Frame} {o : Obligation}
    (h : Reported env limits v e w fs n o)
    (hreads : ∀ clause ∈ limits.reads, ∀ r ∈ clause, ∀ x, (lowerExpr v r).Returns env x →
      ∀ y ∈ x.free, y ≠ Naming.objVar ∧ ¬ e.Binds y)
    (hmeasure : ∀ entry ∈ limits.termination, ∀ o ∈ entry.olds, ∀ y ∈ o.expr.free, ¬ e.Binds y) :
    limits.Apart env v fs where
  reads clause hclause r hr x hx y hy :=
    have hfree := hreads clause hclause r hr x hx y hy
    ⟨hfree.1, fun f hf hmem => hfree.2 (h.binds f hf y hmem)⟩
  measure entry hentry o ho y hy f hf hmem :=
    hmeasure entry hentry o ho y hy (h.binds f hf y hmem)

theorem Reported.means {e n : Source.Expr} {fs : List Frame} {o : Obligation}
    (h : Reported env limits v e w fs n o) (hv : v.old = v) (hkept : limits.Kept env v old ρ σ) :
    o.Means env v limits old ρ σ n := by
  cases h with
  | node hn hos ho =>
    obtain rfl := hn.view_eq hv
    exact Obligation.means_of_node hkept hos ho
  | missing hn => exact ⟨False, .missing rfl, iff_of_false holds_ff id⟩

/-- The code that checks a function checks the contract first, which changes nothing, and then the
body. An assertion for the body holds if the obligation of an operation that the evaluation of the
body comes to holds in every state in which it does. There the obligation says what it is meant to
say, of the reads clause and the measure on entry, if no frame that leads there binds a free name of
what they are lowered to. -/
theorem body_on_entry {c : Context} {f : Function} {e : Source.Expr} {s s' : Progress}
    (hbody : f.body = some e) (h : f.lower.Gives c s () s') :
    ∃ locals before post checks rest olds handles handles',
      .implementation
        { name := Naming.proc f.name .checkWellformed
          params := f.thisBinder ++ sortBinders f.params, outs := [], locals
          body := before ++ [.ifElse none post (checks ++ rest)] } ∈ s'.emitted.rev ∧
      IL.Stmt.Conditions before ∧ IL.Stmt.Conditions checks ∧
      (Termination.values f.bodyView f.measure).Returns (f.env c handles) olds ∧
      (definedness f.bodyView (f.entryLimits c olds) e).Returns (f.env c handles') checks ∧
      ∀ msg cond, .assert msg cond ∈ checks → ∃ frames n o,
        Reported (f.env c handles') (f.entryLimits c olds) f.bodyView e f.bodyView frames n o ∧
        o.msg = msg ∧ ∀ {M : Model} (old ρ : M.Valuation),
          (Holds old ρ cond ↔ ∀ σ, Frame.Reached old frames ρ σ → Holds old σ o.cond) ∧
          ((f.entryLimits c olds).Apart (f.env c handles') f.bodyView frames →
            ∀ σ, Frame.Reached old frames ρ σ →
              o.Means (f.env c handles') f.bodyView (f.entryLimits c olds) old ρ σ n) := by
  obtain ⟨locals, before, post, branch, olds, handles, handles', s₁, s₂, hmem, hbefore, -, -, holds,
    henv, hbranch⟩ := f.lower_branch hbody h
  obtain ⟨checks, rest, rfl, hchecks⟩ := Source.Function.checkBody_definedness hbranch
  rw [henv] at hchecks
  refine ⟨locals, before, post, checks, rest, olds, handles, handles', hmem, hbefore,
    check_conditions e _ _ _ _ _ hchecks, holds, hchecks, fun msg cond hassert => ?_⟩
  obtain ⟨w, frames, n, o, hreported, hmsg, rfl⟩ := check_reported e _ _ _ hchecks msg cond hassert
  have hview : f.bodyView.old = f.bodyView := rfl
  obtain rfl : w = f.bodyView := by
    cases hreported with
    | node hn => exact hn.view_eq hview
    | missing hn => exact hn.view_eq hview
  refine ⟨frames, n, o, hreported, hmsg, fun old ρ => ⟨?_, fun hapart σ hσ => ?_⟩⟩
  · rw [List.append_nil]
    exact Frame.holds_wrapAll _ frames o.cond
  · exact hreported.means hview (hapart.kept hσ)

/-! ## A function that reads an element of another array -/

namespace Shadowing

/-- The first element of an array, under a name. -/
def body (x : String) : Source.Expr :=
  .letIn ⟨default, .int⟩ [(x, .mkVar default "d" (.array .int))]
    (.index ⟨default, .int⟩ (.mkVar default x (.array .int)) (.mkInt default 0))

/-- A function that may read the array `a` and reads the array `d`. -/
def function (x : String) : Function :=
  { (default : Function) with
    name := ⟨"M", ["C", "get"]⟩, params := [("a", .array .int), ("d", .array .int)]
    result := ("r", .int), reads := [.mkVar default "a" (.array .int)], body := some (body x) }

def context (x : String) : Context := { functions := [function x] }

/-- What the body is checked against. The measure has no components. -/
abbrev entryLimits (x : String) : Limits := (function x).entryLimits (context x) []

/-- That what the name stands for is in the reads clause. -/
def allowed (x : String) : IL.Expr := .lets [(x, .var "d")] (.eq (.var x) (.var "a"))

/-- The checks of the body: the array is there, it may be read, and the index is in range. -/
def checks (x : String) : List IL.Stmt :=
  [.assert (nullMessage default) (.lets [(x, .var "d")] (.ne (.var x) Prelude.null)),
    .assert (.error "insufficient reads clause to read array element" default) (allowed x),
    .assert (indexMessage default) (.lets [(x, .var "d")]
      (inRange (.nat 0) (Prelude.arrayLength (.var x))))]

theorem returns_checks (x : String) (handles : List FieldHandle) :
    (definedness (function x).bodyView (entryLimits x) (body x)).Returns
      ((function x).env (context x) handles) (checks x) := by
  rfl

/-- The read of the first element of what has the name `a`. -/
def first : Source.Expr :=
  .index ⟨default, .int⟩ (.mkVar default "a" (.array .int)) (.mkInt default 0)

/-- What it needs. -/
theorem returns_obligations :
    (nodeObligations (function "a").bodyView (entryLimits "a") first).Returns
      ((function "a").env (context "a") [])
      [⟨.ne (.var "a") Prelude.null, nullMessage default⟩,
        ⟨.eq (.var "a") (.var "a"),
          .error "insufficient reads clause to read array element" default⟩,
        ⟨inRange (.nat 0) (Prelude.arrayLength (.var "a")), indexMessage default⟩] := rfl

theorem returns_olds (x : String) (handles : List FieldHandle) :
    (Termination.values (function x).bodyView (function x).measure).Returns
      ((function x).env (context x) handles) [] := rfl

theorem lower_fresh : ((function "e").lower (context "e") {}).1 = .ok () := by cbv

/-- The name of a parameter is taken for the parameter. -/
theorem lower_shadowed : ((function "a").lower (context "a") {}).1 = .ok () ∧
    ((function "a").lower (context "a") {}).2.emitted.rev.filterMap FirstElement.codeOf? =
      [[.ifElse none [.havoc "r", .assume .ff] (checks "a" ++
        [.assign "r" (.lets [("a", .var "d")] FirstElement.lowered)])]] :=
  have h : (((function "a").lower (context "a") {}).1,
      ((function "a").lower (context "a") {}).2.emitted.rev.filterMap FirstElement.codeOf?) =
      (.ok (), [[.ifElse none [.havoc "r", .assume .ff] (checks "a" ++
        [.assign "r" (.lets [("a", .var "d")] FirstElement.lowered)])]]) := by cbv
  Prod.mk.inj h

/-- The only name that the body binds. -/
theorem eq_of_binds {x y : String} (h : (body x).Binds y) : y = x := by
  have hvar (z : String) : ¬ (Source.Expr.mkVar default z (.array .int)).Binds y := by
    rw [Source.Expr.binds_iff]
    simp [Source.Expr.mkVar, Source.Expr.parts]
  have hint : ¬ (Source.Expr.mkInt default 0).Binds y := by
    rw [Source.Expr.binds_iff]
    simp [Source.Expr.mkInt, Source.Expr.parts]
  rw [body, Source.Expr.binds_iff] at h
  obtain ⟨p, hp, h⟩ := h
  rcases List.mem_cons.1 hp with rfl | hp
  · rcases h with h | h
    · simpa using h
    · rw [Source.Expr.binds_iff] at h
      simp [Source.Expr.parts, hvar, hint] at h
  · obtain rfl := List.mem_singleton.1 hp
    simp [hvar] at h

theorem apart {frames : List Frame} {n : Source.Expr} {o : Obligation} {v : View} {env : Env}
    (h : Reported env (entryLimits "e") v (body "e") w frames n o) :
    (entryLimits "e").Apart env v frames := by
  refine h.apart ?_ ?_
  · rintro clause hclause r hr x hx y hy
    obtain rfl : [Source.Expr.mkVar default "a" (.array .int)] = clause := Option.some.inj hclause
    obtain rfl := List.mem_singleton.1 hr
    obtain rfl := ExprM.returns_pure.1 hx
    obtain rfl := List.mem_singleton.1 hy
    exact ⟨by decide, fun h => absurd (eq_of_binds h) (by decide)⟩
  · rintro entry hentry o ho
    obtain rfl := Option.some.inj hentry
    cases ho

/-- A state where the two arrays are not the same. -/
def state : (Standard.model Interval.nothing).Valuation := fun x =>
  if x = "d" then .ref (.object "array" 0 1) else .ref .null

end Shadowing

/-- What is asserted of the body with a name of its own says what is meant: the array that is read
is in the reads clause as it is on entry. -/
theorem body_on_entry_fresh :
    ((Shadowing.function "e").lower (Shadowing.context "e") {}).1 = .ok () ∧ ∃ handles,
      (definedness (Shadowing.function "e").bodyView (Shadowing.entryLimits "e")
        (Shadowing.body "e")).Returns
        ((Shadowing.function "e").env (Shadowing.context "e") handles) (Shadowing.checks "e") ∧
      ∀ msg cond, .assert msg cond ∈ Shadowing.checks "e" → ∃ frames n, ∃ o : Obligation,
        o.msg = msg ∧ ∀ {M : Model} (old ρ : M.Valuation),
          (Holds old ρ cond ↔ ∀ σ, Frame.Reached old frames ρ σ → Holds old σ o.cond) ∧
          ∀ σ, Frame.Reached old frames ρ σ →
            o.Means ((Shadowing.function "e").env (Shadowing.context "e") handles)
              (Shadowing.function "e").bodyView (Shadowing.entryLimits "e") old ρ σ n := by
  have hgives : (Shadowing.function "e").lower.Gives (Shadowing.context "e") {} ()
      ((Shadowing.function "e").lower (Shadowing.context "e") {}).2 :=
    Prod.ext Shadowing.lower_fresh rfl
  obtain ⟨-, -, -, checks, -, olds, handles, handles', -, -, -, holds, hchecks, hasserted⟩ :=
    body_on_entry rfl hgives
  obtain rfl := (Shadowing.returns_olds "e" handles).unique holds
  obtain rfl := (Shadowing.returns_checks "e" handles').unique hchecks
  refine ⟨Shadowing.lower_fresh, handles', hchecks, fun msg cond hmem => ?_⟩
  obtain ⟨frames, n, o, hreported, hmsg, hmeans⟩ := hasserted msg cond hmem
  exact ⟨frames, n, o, hmsg, fun old ρ =>
    ⟨(hmeans old ρ).1, (hmeans old ρ).2 (Shadowing.apart hreported)⟩⟩

/-- With the name of the array in the reads clause the check compares the array that is read with
itself. So it is true, and the array that is read is not in the reads clause as it is on entry. -/
theorem reads_of_shadowed :
    ((Shadowing.function "a").lower (Shadowing.context "a") {}).1 = .ok () ∧
    ((Shadowing.function "a").lower (Shadowing.context "a") {}).2.emitted.rev.filterMap
      FirstElement.codeOf? = [[.ifElse none [.havoc "r", .assume .ff] (Shadowing.checks "a" ++
        [.assign "r" (.lets [("a", .var "d")] FirstElement.lowered)])]] ∧
    .assert (.error "insufficient reads clause to read array element" default)
      (Shadowing.allowed "a") ∈ Shadowing.checks "a" ∧
    Holds Shadowing.state Shadowing.state (Shadowing.allowed "a") ∧
    ∃ frames n obj x σ o, Reported ((Shadowing.function "a").env (Shadowing.context "a") [])
        (Shadowing.entryLimits "a") (Shadowing.function "a").bodyView (Shadowing.body "a")
        (Shadowing.function "a").bodyView frames n o ∧
      Frame.wrapAll true frames o.cond = Shadowing.allowed "a" ∧
      Frame.Reached Shadowing.state frames Shadowing.state σ ∧ n.readObject? = some obj ∧
      (lowerExpr (Shadowing.function "a").bodyView obj).Returns
        ((Shadowing.function "a").env (Shadowing.context "a") []) x ∧
      ¬ InClause ((Shadowing.function "a").env (Shadowing.context "a") [])
        (Shadowing.function "a").bodyView (Shadowing.function "a").reads Shadowing.state
        Shadowing.state (x.eval Shadowing.state σ) := by
  refine ⟨Shadowing.lower_shadowed.1, Shadowing.lower_shadowed.2, by simp [Shadowing.checks], ?_,
    ?_⟩
  · exact (holds_lets ..).2 ((holds_eq ..).2 rfl)
  · have hlet : (lowerBindings (Shadowing.function "a").bodyView
        [("a", .mkVar default "d" (.array .int))]).Returns
          ((Shadowing.function "a").env (Shadowing.context "a") []) [("a", .var "d")] := rfl
    have hnode : Reported ((Shadowing.function "a").env (Shadowing.context "a") [])
        (Shadowing.entryLimits "a") (Shadowing.function "a").bodyView (Shadowing.body "a")
        (Shadowing.function "a").bodyView [.bind [("a", .var "d")]] Shadowing.first
        ⟨.eq (.var "a") (.var "a"),
          .error "insufficient reads clause to read array element" default⟩ :=
      .node (.inside (.letBody hlet) .here) Shadowing.returns_obligations (by simp)
    refine ⟨_, _, _, _, _, _, hnode, rfl, ⟨_, rfl, rfl⟩, rfl, rfl, ?_⟩
    rintro ⟨r, hr, x, hx, hcontains⟩
    obtain rfl := List.mem_singleton.1 hr
    obtain rfl := ExprM.returns_pure.1 hx
    have hsame : Standard.Val.ref (.object "array" 0 1) = .ref .null := hcontains
    cases hsame

end ContractLowering
