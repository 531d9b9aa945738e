import ContractLowering.Proofs.Lowering.Rename

/-!
# Lowering with copies of bound variables

A substitution of copies replaces variables `x` by `x%n`. `lowerExpr_copies` says that what an
expression lowers to with copies in it is what it lowers to by itself, renamed. The induction
carries a renaming that agrees with the substitution on the free variables of the expression:
below a binder the substitution forgets keys that do not occur, while a renaming does not.
-/

namespace ContractLowering

open IL Source

/-- A pattern has at most as many variables as its constructor has fields. -/
def PatternFits (c : Context) (t : Typ) (p : Pattern) : Prop :=
  ∀ {path args d k}, t = .datatype path args → c.datatype path = .ok d →
    d.ctor p.ctor = .ok k → p.binders.length ≤ k.fields.length

/-- Some variables that get copies, all with one number. -/
structure Copies where
  vars : List String
  number : Nat

namespace Copies

/-- The copy of a variable. -/
def name (k : Copies) (x : String) : String := Naming.renamed x k.number

/-- That a name is a copy of one of the variables. -/
def IsCopy (k : Copies) (x : String) : Prop := ∃ y ∈ k.vars, x = k.name y

end Copies

namespace Source.Subst

/-- A substitution of copies, typed like the variables they stand for. -/
structure IsCopies (k : Copies) (Γ : Typing) (s : Subst) : Prop where
  receiver : s.receiver = none
  entry : ∀ p ∈ s.map, p.1 ∈ k.vars ∧ ∃ span t,
    Γ p.1 = some t ∧ p.2 = .var ⟨span, t⟩ (k.name p.1)

/-- The name a substitution of copies gives to a variable. -/
def copyName (k : Copies) (s : Subst) (x : String) : String :=
  if (s.map.lookup x).isSome then k.name x else x

variable {k : Copies} {Γ : Typing} {s : Subst}

namespace IsCopies

theorem lookup (h : s.IsCopies k Γ) {x : String} {e : Expr} (hx : s.map.lookup x = some e) :
    ∃ span t, Γ x = some t ∧ e = .var ⟨span, t⟩ (k.name x) :=
  (h.entry _ (mem_of_lookup hx)).2

theorem restrict (h : s.IsCopies k Γ) (bs : List Binder) (scope : List Expr) :
    (s.restrict (bs.map (·.1)) scope).IsCopies k (Γ.bind bs) where
  receiver := by simp [Subst.restrict, h.receiver]
  entry := by
    intro p hp
    simp only [Subst.restrict, List.mem_filter, Bool.and_eq_true, Bool.not_eq_true',
      List.contains_eq_mem, decide_eq_true_eq, decide_eq_false_iff_not] at hp
    obtain ⟨hp, -, hbound⟩ := hp
    rw [Typing.bind_of_notMem hbound]
    exact h.entry p hp

theorem valueVars (h : s.IsCopies k Γ) {x : String} (hx : x ∈ s.valueVars) : k.IsCopy x := by
  simp only [Subst.valueVars, h.receiver, Expr.freeVars?, List.append_nil, List.mem_flatMap] at hx
  obtain ⟨p, hp, hx⟩ := hx
  obtain ⟨hvar, span, t, -, he⟩ := h.entry p hp
  rw [he] at hx
  exact ⟨p.1, hvar, by simpa [Expr.freeVars] using hx⟩

/-- Below binders that are no copies, the substitution is restricted and the binders keep their
names, and a renaming that agreed with the substitution above still does. -/
theorem enter (h : s.IsCopies k Γ) {f : String → String} {bs : List Binder} {first : Expr}
    {others : List Expr} (hbs : ∀ b ∈ bs, ¬ k.IsCopy b.1)
    (hf : ∀ d ∈ first :: others, ∀ x ∈ d.freeVars, x ∉ bs.map (·.1) → f x = s.copyName k x) :
    ∃ inner, s.enter bs first others = (inner, bs.map (·.1)) ∧ inner.IsCopies k (Γ.bind bs) ∧
      ∀ d ∈ first :: others, ∀ x ∈ d.freeVars, keep (bs.map (·.1)) f x = inner.copyName k x := by
  have hinner := h.restrict bs (first :: others)
  refine ⟨_, enter_of_noClash fun b hb hx => hbs b hb (hinner.valueVars hx), hinner, ?_⟩
  intro d hd x hx
  have hlookup : (s.restrict (bs.map (·.1)) (first :: others)).map.lookup x =
      if x ∈ bs.map (·.1) then none else s.map.lookup x := by
    have hfree : x ∈ (first :: others).flatMap Expr.freeVars := List.mem_flatMap.2 ⟨d, hd, hx⟩
    simp only [Subst.restrict, List.contains_eq_mem]
    rw [lookup_filter fun y => decide (y ∈ (first :: others).flatMap Expr.freeVars) &&
      !decide (y ∈ bs.map (·.1))]
    rw [decide_eq_true hfree, Bool.true_and]
    by_cases hbound : x ∈ bs.map (·.1)
    · rw [decide_eq_true hbound, if_pos hbound]; rfl
    · rw [decide_eq_false hbound, if_neg hbound]; rfl
  by_cases hbound : x ∈ bs.map (·.1)
  · rw [keep_of_mem hbound, copyName, hlookup, if_pos hbound]; rfl
  · rw [keep_of_notMem hbound, hf d hd x hx hbound, copyName, copyName, hlookup, if_neg hbound]

end IsCopies

end Source.Subst

/-- Copies have the types of what they stand for, so substituting them changes no type. -/
theorem Source.Expr.typ_subst_copies {k : Copies} {Γ : Typing} {s : Subst} {P : String → Prop}
    {F : Typ → Pattern → Prop} {e : Source.Expr} (hs : s.IsCopies k Γ)
    (he : e.Scoped P F Γ) : (e.subst s).typ = e.typ := by
  cases e with
  | var i x =>
    rw [Expr.subst_var]
    cases hx : s.map.lookup x with
    | none => rfl
    | some d =>
      obtain ⟨span, t, ht, rfl⟩ := hs.lookup hx
      exact (he t ht).symm
  | this i => rw [Expr.subst_this, hs.receiver]; rfl
  | quant => rw [Expr.subst_quant]; rfl
  | setComp i bs r t =>
    simp only [Expr.subst, Expr.subst?]
    split
    · split <;> rfl
    · rfl
  | mapComp => rw [Expr.subst_mapComp]; rfl
  | letIn => rw [Expr.subst_letIn]; rfl
  | _ => simp [Expr.typ, Expr.info]

/-! ## Expressions -/

section

variable {env : Env} {k : Copies} {v : View} {s : Subst} {f : String → String} {Γ : Typing}

/-- A substitution of copies, a renaming that leaves reserved names alone, and no binder that is a
copy. -/
structure Copying (env : Env) (k : Copies) (v : View) (s : Subst) (f : String → String)
    (Γ : Typing) : Prop where
  copies : s.IsCopies k Γ
  fixes : Fixes env v (fun x => ¬ k.IsCopy x) f

/-- Patterns do not bind more variables than there are fields, bound variables are no copies and
typed like their binders, and the renaming agrees with the substitution on free variables. -/
structure Copyable (env : Env) (k : Copies) (s : Subst) (f : String → String) (Γ : Typing)
    (e : Source.Expr) : Prop where
  binders : e.Scoped (fun x => ¬ k.IsCopy x) (PatternFits env.context) Γ
  agree : ∀ x ∈ e.freeVars, f x = s.copyName k x

/-- An expression is the other one renamed to copies. -/
abbrev Copied (k : Copies) (f : String → String) (e e' : IL.Expr) : Prop :=
  Renames (fun x => ¬ k.IsCopy x) f e e'

/-- An expression lowers to the renamed copy of itself when copies are substituted. -/
def LowersToCopy (env : Env) (k : Copies) (e : Source.Expr) : Prop :=
  ∀ {v : View} {s : Subst} {f : String → String} {Γ : Typing} {a a' : IL.Expr},
    Copying env k v s f Γ → Copyable env k s f Γ e → (lowerExpr v e).Returns env a →
    (lowerExpr v (e.subst s)).Returns env a' → Copied k f a a'

theorem lowerExpr?_copies {o : Option Source.Expr} (ih : ∀ e ∈ o, LowersToCopy env k e)
    (h : Copying env k v s f Γ) (ho : ∀ e ∈ o, Copyable env k s f Γ e) {u u' : Option IL.Expr}
    (hu : (lowerExpr? v o).Returns env u)
    (hu' : (lowerExpr? v (o.map (Expr.subst s))).Returns env u') :
    Option.Rel (Copied k f) u u' := by
  cases o with
  | none =>
    simp only [Option.map_none, lowerExpr?, ExprM.returns_pure] at hu hu'
    subst hu hu'
    exact .none
  | some e =>
    simp only [Option.map_some, lowerExpr?, ExprM.returns_bind, ExprM.returns_pure] at hu hu'
    obtain ⟨a, ha, rfl⟩ := hu
    obtain ⟨a', ha', rfl⟩ := hu'
    exact .some (ih e rfl h (ho e rfl) ha ha')

theorem receiverArgs_copies {owner : Option Path} {o : Option Source.Expr}
    (ih : ∀ e ∈ o, LowersToCopy env k e) (h : Copying env k v s f Γ)
    (ho : ∀ e ∈ o, Copyable env k s f Γ e) {us us' : List IL.Expr}
    (hu : (receiverArgs v owner o).Returns env us)
    (hu' : (receiverArgs v owner (o.map (Expr.subst s))).Returns env us') :
    List.Forall₂ (Copied k f) us us' := by
  cases owner with
  | none =>
    simp only [receiverArgs, ExprM.returns_pure] at hu hu'
    subst hu hu'
    exact .nil
  | some p =>
    cases o with
    | none =>
      simp only [receiverArgs, Option.map_none, lowerReceiver, ExprM.returns_pure] at hu hu'
      subst hu hu'
      exact .cons (.const (h.fixes.reserved .this)) .nil
    | some e =>
      simp only [receiverArgs, Option.map_some, lowerReceiver, ExprM.returns_bind,
        ExprM.returns_pure] at hu hu'
      obtain ⟨a, ha, rfl⟩ := hu
      obtain ⟨a', ha', rfl⟩ := hu'
      exact .cons (ih e rfl h (ho e rfl) ha ha') .nil

theorem lowerArgs_copies {es : List Source.Expr} (ih : ∀ e ∈ es, LowersToCopy env k e)
    (h : Copying env k v s f Γ) (hes : ∀ e ∈ es, Copyable env k s f Γ e)
    {ps : List Source.Binder} {us us' : List IL.Expr} (hu : (lowerArgs v ps es).Returns env us)
    (hu' : (lowerArgs v ps (es.map (Expr.subst s))).Returns env us') :
    List.Forall₂ (Copied k f) us us' := by
  induction es generalizing ps us us' with
  | nil =>
    simp only [List.map_nil, lowerArgs, ExprM.returns_pure] at hu hu'
    subst hu hu'
    exact .nil
  | cons e es ihes =>
    cases ps with
    | nil =>
      simp only [List.map_cons, lowerArgs, ExprM.returns_pure] at hu hu'
      subst hu hu'
      exact .nil
    | cons p ps =>
      simp only [List.map_cons, lowerArgs, ExprM.returns_bind, ExprM.returns_pure] at hu hu'
      obtain ⟨a, ha, as, has, rfl⟩ := hu
      obtain ⟨a', ha', as', has', rfl⟩ := hu'
      have he := hes e (by simp)
      rw [Expr.typ_subst_copies h.copies he.binders]
      exact .cons (h.fixes.congruence.convert (ih e (by simp) h he ha ha'))
        (ihes (fun d hd => ih d (by simp [hd])) (fun d hd => hes d (by simp [hd])) has has')

theorem lowerElements_copies {es : List Source.Expr} (ih : ∀ e ∈ es, LowersToCopy env k e)
    (h : Copying env k v s f Γ) (hes : ∀ e ∈ es, Copyable env k s f Γ e) {elem : Typ}
    {add : IL.Expr → IL.Expr → IL.Expr}
    (hadd : ∀ {a a' b b'}, Copied k f a a' → Copied k f b b' → Copied k f (add a b) (add a' b'))
    {acc acc' a a' : IL.Expr} (hacc : Copied k f acc acc')
    (ha : (lowerElements v elem add acc es).Returns env a)
    (ha' : (lowerElements v elem add acc' (es.map (Expr.subst s))).Returns env a') :
    Copied k f a a' := by
  induction es generalizing acc acc' with
  | nil =>
    simp only [List.map_nil, lowerElements, ExprM.returns_pure] at ha ha'
    subst ha ha'
    exact hacc
  | cons e es ihes =>
    simp only [List.map_cons, lowerElements, ExprM.returns_bind] at ha ha'
    obtain ⟨b, hb, ha⟩ := ha
    obtain ⟨b', hb', ha'⟩ := ha'
    have he := hes e (by simp)
    rw [Expr.typ_subst_copies h.copies he.binders] at ha'
    have hnext := hadd hacc (h.fixes.congruence.box (t := elem)
      (h.fixes.congruence.convert (s := e.typ) (t := elem) (ih e (by simp) h he hb hb')))
    exact ihes (fun d hd => ih d (by simp [hd])) (fun d hd => hes d (by simp [hd])) hnext ha ha'

theorem lowerEntries_copies {kvs : List (Source.Expr × Source.Expr)}
    (ih : ∀ p ∈ kvs, LowersToCopy env k p.1 ∧ LowersToCopy env k p.2)
    (h : Copying env k v s f Γ)
    (hkvs : ∀ p ∈ kvs, Copyable env k s f Γ p.1 ∧ Copyable env k s f Γ p.2)
    {key value : Typ} {acc acc' a a' : IL.Expr} (hacc : Copied k f acc acc')
    (ha : (lowerEntries v key value acc kvs).Returns env a)
    (ha' : (lowerEntries v key value acc'
      (kvs.map fun p => (p.1.subst s, p.2.subst s))).Returns env a') : Copied k f a a' := by
  induction kvs generalizing acc acc' with
  | nil =>
    simp only [List.map_nil, lowerEntries, ExprM.returns_pure] at ha ha'
    subst ha ha'
    exact hacc
  | cons p kvs ihkvs =>
    simp only [List.map_cons, lowerEntries, ExprM.returns_bind] at ha ha'
    obtain ⟨k, hk, b, hb, ha⟩ := ha
    obtain ⟨k', hk', b', hb', ha'⟩ := ha'
    obtain ⟨hp₁, hp₂⟩ := hkvs p (by simp)
    obtain ⟨ihk, ihv⟩ := ih p (by simp)
    rw [Expr.typ_subst_copies h.copies hp₁.binders,
      Expr.typ_subst_copies h.copies hp₂.binders] at ha'
    exact ihkvs (fun d hd => ih d (by simp [hd])) (fun d hd => hkvs d (by simp [hd]))
      (.app₃ hacc (h.fixes.congruence.box (h.fixes.congruence.convert (ihk h hp₁ hk hk')))
        (h.fixes.congruence.box (h.fixes.congruence.convert (ihv h hp₂ hb hb')))) ha ha'

theorem lowerBindings_copies {bs : List (String × Source.Expr)}
    (ih : ∀ p ∈ bs, LowersToCopy env k p.2) (h : Copying env k v s f Γ)
    (hbs : ∀ p ∈ bs, Copyable env k s f Γ p.2) {us us' : List (String × IL.Expr)}
    (hu : (lowerBindings v bs).Returns env us)
    (hu' : (lowerBindings v (bs.map fun p => (p.1, p.2.subst s))).Returns env us') :
    us.map (·.1) = bs.map (·.1) ∧
      List.Forall₂ (fun u u' => u'.1 = u.1 ∧ Copied k f u.2 u'.2) us us' := by
  induction bs generalizing us us' with
  | nil =>
    simp only [List.map_nil, lowerBindings, ExprM.returns_pure] at hu hu'
    subst hu hu'
    exact ⟨rfl, .nil⟩
  | cons p bs ihbs =>
    simp only [List.map_cons, lowerBindings, ExprM.returns_bind, ExprM.returns_pure] at hu hu'
    obtain ⟨a, ha, as, has, rfl⟩ := hu
    obtain ⟨a', ha', as', has', rfl⟩ := hu'
    obtain ⟨hnames, hrest⟩ :=
      ihbs (fun d hd => ih d (by simp [hd])) (fun d hd => hbs d (by simp [hd])) has has'
    exact ⟨by simp [hnames], .cons ⟨rfl, ih p (by simp) h (hbs p (by simp)) ha ha'⟩ hrest⟩

/-! ### Parts below binders -/

namespace Copyable

/-- A part with the same binders in scope. -/
theorem part {e d : Source.Expr} (h : Copyable env k s f Γ e)
    (hd : d.Scoped (fun x => ¬ k.IsCopy x) (PatternFits env.context) Γ)
    (hfree : ∀ x ∈ d.freeVars, x ∈ e.freeVars) :
    Copyable env k s f Γ d :=
  ⟨hd, fun x hx => h.agree x (hfree x hx)⟩

end Copyable

theorem Copying.enter (h : Copying env k v s f Γ) (bs : List Source.Binder) (first : Source.Expr)
    (others : List Source.Expr) (hbs : ∀ b ∈ bs, ¬ k.IsCopy b.1)
    (hf : ∀ d ∈ first :: others, ∀ x ∈ d.freeVars, x ∉ bs.map (·.1) → f x = s.copyName k x) :
    ∃ inner, s.enter bs first others = (inner, bs.map (·.1)) ∧
      Copying env k v inner (keep (bs.map (·.1)) f) (Γ.bind bs) ∧
      ∀ d ∈ first :: others,
        d.Scoped (fun x => ¬ k.IsCopy x) (PatternFits env.context) (Γ.bind bs) →
        Copyable env k inner (keep (bs.map (·.1)) f) (Γ.bind bs) d := by
  obtain ⟨inner, henter, hcopies, hagree⟩ := h.copies.enter hbs hf
  exact ⟨inner, henter, ⟨hcopies, h.fixes.keep _⟩, fun d hd hsc => ⟨hsc, hagree d hd⟩⟩

/-- The bindings of a match case and of its copy. -/
theorem caseBindings_copies {d : Datatype} {dt : Path} {p : Pattern} {a a' : IL.Expr}
    (hfits : ∀ {k}, d.ctor p.ctor = .ok k → p.binders.length ≤ k.fields.length)
    (ha : Copied k f a a') {us us' : List (String × IL.Expr)}
    (hu : (caseBindings d dt p a).Returns env us)
    (hu' : (caseBindings d dt p a').Returns env us') :
    us.map (·.1) = p.binders.map (·.1) ∧
      List.Forall₂ (fun u u' => u'.1 = u.1 ∧ Copied k f u.2 u'.2) us us' := by
  simp only [caseBindings, ExprM.returns_bind, ExprM.returns_ofExcept, ExprM.returns_pure]
    at hu hu'
  obtain ⟨c, hc, rfl⟩ := hu
  obtain ⟨c', hc', rfl⟩ := hu'
  obtain rfl : c = c' := Except.ok.inj (hc.symm.trans hc')
  constructor
  · have hzip := List.map_fst_zip (hfits hc)
    rw [List.map_map]
    conv_rhs => rw [← hzip, List.map_map]
    rfl
  · rw [List.forall₂_map_left_iff, List.forall₂_map_right_iff]
    exact List.forall₂_same.2 fun _ _ => ⟨rfl, Compatible.convert (.renames _ f) (.app₁ ha)⟩

theorem lowerArms_copies {arms : List (Pattern × Source.Expr)}
    (ih : ∀ p ∈ arms, LowersToCopy env k p.2) (h : Copying env k v s f Γ) {t : Typ} {dt : Path}
    {args : List Typ} (ht : t = .datatype dt args) {d : Datatype}
    (hd : env.context.datatype dt = .ok d)
    (hsc : Expr.ScopedArms (fun x => ¬ k.IsCopy x) (PatternFits env.context) Γ t arms)
    (hagree : ∀ x ∈ Expr.freeVarsArms arms, f x = s.copyName k x) {a a' : IL.Expr}
    (ha : Copied k f a a') {result : Typ} {o o' : Option IL.Expr}
    (ho : (lowerArms v d dt a result arms).Returns env o)
    (ho' : (lowerArms v d dt a' result (arms.map (Expr.substArm s))).Returns env o') :
    Option.Rel (Copied k f) o o' := by
  rw [Expr.scopedArms_iff] at hsc
  induction arms generalizing o o' with
  | nil =>
    simp only [List.map_nil, lowerArms, ExprM.returns_pure] at ho ho'
    subst ho ho'
    exact .none
  | cons p arms iharms =>
    obtain ⟨p, body⟩ := p
    obtain ⟨hfits, hnames, hbody⟩ := hsc (p, body) (by simp)
    obtain ⟨inner, henter, hinner, hcopyable⟩ := h.enter _ body [] hnames (by
      intro e he x hx hbound
      obtain rfl := List.mem_singleton.1 he
      exact hagree x (Expr.mem_freeVarsArms.2 ⟨(p, e), by simp, hx, hbound⟩))
    simp only [List.map_cons, Expr.substArm, henter, Subst.rebind_self, lowerArms,
      ExprM.returns_bind] at ho ho'
    obtain ⟨rest, hrest, us, hus, b, hb, ho⟩ := ho
    obtain ⟨rest', hrest', us', hus', b', hb', ho'⟩ := ho'
    have hbody' := hcopyable body (by simp) hbody
    obtain ⟨husn, husv⟩ := caseBindings_copies (hfits ht hd) ha hus hus'
    have harm : Copied k f (.lets us (Boxing.convert body.typ result b))
        (.lets us' (Boxing.convert (body.subst inner).typ result b')) := by
      rw [Expr.typ_subst_copies hinner.copies hbody]
      refine .lets husv (fun u hu => ?_) ?_
      · have hu : u.1 ∈ p.binders.map (·.1) := husn ▸ List.mem_map_of_mem hu
        obtain ⟨b, hb, he⟩ := List.mem_map.1 hu
        exact he ▸ hnames b hb
      · rw [husn]
        exact hinner.fixes.congruence.convert (ih (p, body) (by simp) hinner hbody' hb hb')
    have hothers := iharms (fun q hq => ih q (by simp [hq])) (fun q hq => hsc q (by simp [hq]))
      (fun x hx => hagree x (by simp [Expr.freeVarsArms, hx])) hrest hrest'
    cases hothers with
    | none =>
      simp only [ExprM.returns_pure] at ho ho'
      subst ho ho'
      exact .some harm
    | some hothers =>
      simp only [ExprM.returns_pure] at ho ho'
      subst ho ho'
      exact .some (.cond (.app₁ ha) harm hothers)

theorem letUnboxed_copies {P : String → Prop} (h : Fixes env v P f) {b : Source.Binder}
    (hb : P b.1) {a a' : IL.Expr} (ha : Renames P (keep [b.1] f) a a') :
    Renames P f (letUnboxed b a) (letUnboxed b a') :=
  .lets (.cons ⟨rfl, h.congruence.unbox (.const (h.reserved (.generated .box)))⟩ .nil)
    (by simpa using hb) ha

/-- Whether a set comprehension collects its variable is seen in its copy. -/
theorem collectsBinder_copies (hs : s.IsCopies k Γ) {x : String} (hx : ¬ k.IsCopy x)
    {t : Option Source.Expr} (hself : ∀ d ∈ t, x ∈ d.freeVars → s.copyName k x = x) :
    collectsBinder x (t.map (Expr.subst s)) = collectsBinder x t := by
  rcases t with _ | t
  · rfl
  · cases t with
    | var i y =>
      simp only [Option.map_some, Expr.subst_var]
      cases hy : s.map.lookup y with
      | none => rfl
      | some e =>
        obtain ⟨span, u, -, rfl⟩ := hs.lookup hy
        have hne : x ≠ y := by
          rintro rfl
          have hcopy := hself _ rfl (by simp [Expr.freeVars])
          rw [Subst.copyName, hy] at hcopy
          exact hx ⟨x, (hs.entry _ (Subst.mem_of_lookup hy)).1, hcopy.symm⟩
        have hne' : x ≠ k.name y := fun h =>
          hx ⟨y, (hs.entry _ (Subst.mem_of_lookup hy)).1, h⟩
        simp [collectsBinder, hne, hne']
    | this i => simp [hs.receiver]
    | quant => rw [Option.map_some, Expr.subst_quant]; rfl
    | setComp i bs r t =>
      simp only [Option.map_some, Expr.subst, Expr.subst?]
      split
      · split <;> rfl
      · rfl
    | mapComp => rw [Option.map_some, Expr.subst_mapComp]; rfl
    | letIn => rw [Option.map_some, Expr.subst_letIn]; rfl
    | _ => simp [collectsBinder]

theorem setPredicate_copies {i : Info} {bs : List Source.Binder} {t : Option Source.Expr}
    (ih : ∀ d ∈ t, LowersToCopy env k d) (h : Fixes env v (fun x => ¬ k.IsCopy x) f)
    {inner : Subst} (hinner : Copying env k v inner (keep (bs.map (·.1)) f) (Γ.bind bs))
    (hbs : ∀ b ∈ bs, ¬ k.IsCopy b.1)
    (ht : ∀ d ∈ t, Copyable env k inner (keep (bs.map (·.1)) f) (Γ.bind bs) d)
    {w w' r r' p p' : IL.Expr} (hw : Copied k (keep (bs.map (·.1)) f) w w')
    (hr : Copied k (keep (bs.map (·.1)) f) r r')
    (hp : (setPredicate v i bs t w r).Returns env p)
    (hp' : (setPredicate v i bs (t.map (Expr.subst inner)) w' r').Returns env p') :
    Copied k f p p' := by
  have hcollects : ∀ b, bs = [b] →
      collectsBinder b.1 (t.map (Expr.subst inner)) = collectsBinder b.1 t := by
    rintro b rfl
    refine collectsBinder_copies hinner.copies (hbs b (by simp)) fun d hd hx => ?_
    rw [← (ht d hd).agree b.1 hx, keep_of_mem (by simp)]
  unfold setPredicate at hp hp'
  split at hp
  · rename_i b hb
    rw [List.headD_cons] at hb hp'
    simp only [hcollects b rfl, hb, ExprM.returns_pure] at hp hp'
    subst hp hp'
    exact letUnboxed_copies h (hbs b (by simp)) (.conj (.cons hw (.cons hr .nil)))
  · rename_i hother
    split at hp'
    · rename_i b hb
      rw [List.headD_cons, hcollects b rfl] at hb
      exact absurd hb (hother b rfl)
    · cases t with
      | none => simp at hp
      | some d =>
        simp only [Option.map_some, ExprM.returns_bind, exAuto, ExprM.returns_pure] at hp hp'
        obtain ⟨elem, helem, x, hx, ts, -, rfl⟩ := hp
        obtain ⟨elem', helem', x', hx', ts', -, rfl⟩ := hp'
        obtain rfl := helem.unique helem'
        have hd := ht d rfl
        rw [Expr.typ_subst_copies hinner.copies hd.binders]
        have hbox : Copied k (keep _ f) (.var Naming.boxVar) (.var Naming.boxVar) :=
          .const (hinner.fixes.reserved (.generated .box))
        have hmem := hinner.fixes.congruence.box (t := elem) (hinner.fixes.congruence.convert
          (s := d.typ) (t := elem) (ih d rfl hinner hd hx hx'))
        refine .quantify (fun b hb => ?_) ?_
        · obtain ⟨c, hc, rfl⟩ := List.mem_map.1 hb
          exact hbs c hc
        · rw [sortBinders_names]
          exact .conj (.cons hw (.cons hr (.cons (.binary hbox hmem) .nil)))

/-- Lowering an expression with copies in place of variables gives the renamed copy of what it
lowers to. -/
theorem lowerExpr_copies (e : Source.Expr) : LowersToCopy env k e := by
  induction e using Source.Expr.recData with
  | bool i b =>
    intro v s f Γ a a' h he ha ha'
    simp only [Expr.subst_bool, lowerExpr, ExprM.returns_pure] at ha ha'
    subst ha ha'
    exact .bool b
  | int i k =>
    intro v s f Γ a a' h he ha ha'
    simp only [Expr.subst_int, lowerExpr, ExprM.returns_pure] at ha ha'
    subst ha ha'
    unfold intConst
    split
    · exact .multi₂ (.nat 0) (.nat _)
    · exact .nat _
  | null i =>
    intro v s f Γ a a' h he ha ha'
    simp only [Expr.subst_null, lowerExpr, ExprM.returns_pure] at ha ha'
    subst ha ha'
    exact h.fixes.congruence.null
  | var i x =>
    intro v s f Γ a a' h he ha ha'
    have hx := he.agree x (by simp [Expr.freeVars])
    simp only [lowerExpr, ExprM.returns_pure] at ha
    subst ha
    have hlow : a' = .var (s.copyName k x) := by
      rw [Expr.subst_var] at ha'
      unfold Subst.copyName
      cases hl : s.map.lookup x with
      | none => simpa [hl, lowerExpr] using ha'
      | some d =>
        obtain ⟨span, t, -, rfl⟩ := h.copies.lookup hl
        simpa [hl, lowerExpr] using ha'
    rw [hlow, ← hx]
    exact .var x
  | this i =>
    intro v s f Γ a a' h he ha ha'
    rw [Expr.subst_this, h.copies.receiver] at ha'
    simp only [Option.getD_none, lowerExpr, ExprM.returns_pure] at ha ha'
    subst ha ha'
    exact .const (h.fixes.reserved .this)
  | field i e g ih =>
    intro v s f Γ a a' h he ha ha'
    simp only [Expr.subst_field, lowerExpr, ExprM.returns_bind, ExprM.returns_field,
      Heap.returns_fieldHandle, ExprM.returns_pure, exists_eq_left] at ha ha'
    obtain ⟨fld, hfld, o, ho, rfl⟩ := ha
    obtain ⟨fld', hfld', o', ho', rfl⟩ := ha'
    obtain rfl : fld = fld' := Except.ok.inj (hfld.symm.trans hfld')
    have hobj := ih h (he.part he.binders fun x hx => hx) ho ho'
    have hid : env.context.field fld.id = .ok fld := by rw [Context.id_of_field hfld]; exact hfld
    exact h.fixes.congruence.convert (h.fixes.congruence.readField hid hobj)
  | index i a b iha ihb =>
    intro v s f Γ c c' h he hc hc'
    simp only [Expr.subst_index, lowerExpr, ExprM.returns_bind] at hc hc'
    obtain ⟨x, hx, y, hy, hc⟩ := hc
    obtain ⟨x', hx', y', hy', hc'⟩ := hc'
    have ha := he.part he.binders.1 fun x hx => by simp [Expr.freeVars, hx]
    have hb := he.part he.binders.2 fun x hx => by simp [Expr.freeVars, hx]
    rw [Expr.typ_subst_copies h.copies ha.binders, Expr.typ_subst_copies h.copies hb.binders] at hc'
    exact h.fixes.congruence.lowerIndex (iha h ha hx hx') (ihb h hb hy hy') hc hc'
  | slice i e lo hi ih ihlo ihhi =>
    intro v s f Γ c c' h he hc hc'
    obtain ⟨he₁, hlo, hhi⟩ := he.binders
    rw [Expr.scoped?_iff] at hlo hhi
    simp only [Expr.subst_slice, lowerExpr, ExprM.returns_bind, ExprM.returns_pure] at hc hc'
    obtain ⟨x, hx, l, hl, u, hu, rfl⟩ := hc
    obtain ⟨x', hx', l', hl', u', hu', rfl⟩ := hc'
    have hcoll := he.part he₁ fun y hy => by simp [Expr.freeVars, hy]
    have hx := ih h hcoll hx hx'
    rw [Expr.typ_subst_copies h.copies hcoll.binders]
    refine h.fixes.congruence.seqSlice ?_ (lowerExpr?_copies ihlo h ?_ hl hl')
      (lowerExpr?_copies ihhi h ?_ hu hu')
    · split
      · exact .app₂ h.fixes.congruence.heap hx
      · exact hx
    · refine fun d hd => he.part (hlo d hd) fun y hy => ?_
      simp [Expr.freeVars, Expr.mem_freeVars?.2 ⟨d, hd, hy⟩]
    · refine fun d hd => he.part (hhi d hd) fun y hy => ?_
      simp [Expr.freeVars, Expr.mem_freeVars?.2 ⟨d, hd, hy⟩]
  | update i a b c iha ihb ihc =>
    intro v s f Γ d d' h he hd hd'
    simp only [Expr.subst_update, lowerExpr, ExprM.returns_bind] at hd hd'
    obtain ⟨x, hx, y, hy, z, hz, hd⟩ := hd
    obtain ⟨x', hx', y', hy', z', hz', hd'⟩ := hd'
    have ha := he.part he.binders.1 fun x hx => by simp [Expr.freeVars, hx]
    have hb := he.part he.binders.2.1 fun x hx => by simp [Expr.freeVars, hx]
    have hc := he.part he.binders.2.2 fun x hx => by simp [Expr.freeVars, hx]
    rw [Expr.typ_subst_copies h.copies ha.binders, Expr.typ_subst_copies h.copies hc.binders] at hd'
    exact h.fixes.congruence.lowerUpdate (iha h ha hx hx') (ihb h hb hy hy') (ihc h hc hz hz')
      hd hd'
  | arrayLength i e ih =>
    intro v s f Γ a a' h he ha ha'
    simp only [Expr.subst_arrayLength, lowerExpr, ExprM.returns_bind,
      Heap.returns_arrayLength] at ha ha'
    obtain ⟨x, hx, rfl⟩ := ha
    obtain ⟨x', hx', rfl⟩ := ha'
    exact .app₁ (ih h (he.part he.binders fun y hy => hy) hx hx')
  | display i kind es ih =>
    intro v s f Γ a a' h he ha ha'
    have hes := Expr.scopedList_iff.1 he.binders
    simp only [Expr.subst_display, lowerExpr, ExprM.returns_bind] at ha ha'
    obtain ⟨t, ht, ha⟩ := ha
    obtain ⟨t', ht', ha'⟩ := ha'
    obtain rfl := ht.unique ht'
    refine lowerElements_copies ih h (fun d hd => he.part (hes d hd) fun y hy => ?_) ?_ ?_ ha ha'
    · exact Expr.mem_freeVarsList.2 ⟨d, hd, hy⟩
    · intro b b' c c' hb hc
      cases kind <;> exact .app₂ hb hc
    · cases kind <;> exact h.fixes.congruence.const (by simp [preludeConstants])
  | mapDisplay i kvs ih =>
    intro v s f Γ a a' h he ha ha'
    have hkvs := Expr.scopedEntries_iff.1 he.binders
    simp only [Expr.subst_mapDisplay, lowerExpr, ExprM.returns_bind] at ha ha'
    obtain ⟨t, ht, ha⟩ := ha
    obtain ⟨t', ht', ha'⟩ := ha'
    obtain rfl := ht.unique ht'
    refine lowerEntries_copies ih h (fun p hp => ⟨he.part (hkvs p hp).1 fun y hy => ?_,
      he.part (hkvs p hp).2 fun y hy => ?_⟩) (h.fixes.congruence.const (by simp [preludeConstants]))
      ha ha'
    · exact Expr.mem_freeVarsEntries.2 ⟨p, hp, .inl hy⟩
    · exact Expr.mem_freeVarsEntries.2 ⟨p, hp, .inr hy⟩
  | ctor i dt c es ih =>
    intro v s f Γ a a' h he ha ha'
    have hes := Expr.scopedList_iff.1 he.binders
    simp only [Expr.subst_ctor, lowerExpr, ExprM.returns_bind, ExprM.returns_datatype,
      ExprM.returns_ofExcept, ExprM.returns_pure] at ha ha'
    obtain ⟨d, hd, k, hk, us, hus, rfl⟩ := ha
    obtain ⟨d', hd', k', hk', us', hus', rfl⟩ := ha'
    obtain rfl : d = d' := Except.ok.inj (hd.symm.trans hd')
    obtain rfl : k = k' := Except.ok.inj (hk.symm.trans hk')
    refine .app (lowerArgs_copies ih h (fun d hd => he.part (hes d hd) fun y hy => ?_) hus hus')
    exact Expr.mem_freeVarsList.2 ⟨d, hd, hy⟩
  | destruct i e dt c g ih =>
    intro v s f Γ a a' h he ha ha'
    simp only [Expr.subst_destruct, lowerExpr, ExprM.returns_bind, ExprM.returns_datatype,
      ExprM.returns_ofExcept, ExprM.returns_pure] at ha ha'
    obtain ⟨d, hd, k, hk, fld, hfld, x, hx, rfl⟩ := ha
    obtain ⟨d', hd', k', hk', fld', hfld', x', hx', rfl⟩ := ha'
    obtain rfl : d = d' := Except.ok.inj (hd.symm.trans hd')
    obtain rfl : k = k' := Except.ok.inj (hk.symm.trans hk')
    obtain rfl : fld = fld' := Except.ok.inj (hfld.symm.trans hfld')
    exact h.fixes.congruence.convert (.app₁ (ih h (he.part he.binders fun y hy => hy) hx hx'))
  | isCtor i e dt c ih =>
    intro v s f Γ a a' h he ha ha'
    simp only [Expr.subst_isCtor, lowerExpr, ExprM.returns_bind, ExprM.returns_pure] at ha ha'
    obtain ⟨x, hx, rfl⟩ := ha
    obtain ⟨x', hx', rfl⟩ := ha'
    exact .app₁ (ih h (he.part he.binders fun y hy => hy) hx hx')
  | old i e ih =>
    intro v s f Γ a a' h he ha ha'
    simp only [Expr.subst_old, lowerExpr] at ha ha'
    exact ih ⟨h.copies, h.fixes.old⟩ (he.part he.binders fun y hy => hy) ha ha'
  | fresh i e ih =>
    intro v s f Γ a a' h he ha ha'
    simp only [Expr.subst_fresh, lowerExpr, ExprM.returns_bind, ExprM.returns_pure] at ha ha'
    obtain ⟨x, hx, rfl⟩ := ha
    obtain ⟨x', hx', rfl⟩ := ha'
    have hpart : Copyable env k s f Γ e := he.part he.binders fun y hy => hy
    rw [Expr.typ_subst_copies h.copies hpart.binders]
    exact h.fixes.congruence.lowerFresh _ (ih h hpart hx hx')
  | unary i op e ih =>
    intro v s f Γ a a' h he ha ha'
    have hpart : Copyable env k s f Γ e := he.part he.binders fun y hy => hy
    cases op with
    | not =>
      simp only [Expr.subst_unary, lowerExpr, ExprM.returns_bind, ExprM.returns_pure] at ha ha'
      obtain ⟨x, hx, rfl⟩ := ha
      obtain ⟨x', hx', rfl⟩ := ha'
      exact (ih h hpart hx hx').neg
    | neg =>
      simp only [Expr.subst_unary, lowerExpr, ExprM.returns_bind, ExprM.returns_pure] at ha ha'
      obtain ⟨x, hx, rfl⟩ := ha
      obtain ⟨x', hx', rfl⟩ := ha'
      exact .multi₂ (.nat 0) (ih h hpart hx hx')
    | card =>
      simp only [Expr.subst_unary, lowerExpr, ExprM.returns_bind, ExprM.returns_pure] at ha ha'
      obtain ⟨size, hsize, x, hx, rfl⟩ := ha
      obtain ⟨size', hsize', x', hx', rfl⟩ := ha'
      rw [Expr.typ_subst_copies h.copies hpart.binders] at hsize'
      exact h.fixes.congruence.lowerCard (ih h hpart hx hx') hsize hsize'
  | binary i op a b iha ihb =>
    intro v s f Γ c c' h he hc hc'
    simp only [Expr.subst_binary, lowerExpr, ExprM.returns_bind] at hc hc'
    obtain ⟨x, hx, y, hy, hc⟩ := hc
    obtain ⟨x', hx', y', hy', hc'⟩ := hc'
    have ha := he.part he.binders.1 fun x hx => by simp [Expr.freeVars, hx]
    have hb := he.part he.binders.2 fun x hx => by simp [Expr.freeVars, hx]
    rw [Expr.typ_subst_copies h.copies ha.binders, Expr.typ_subst_copies h.copies hb.binders] at hc'
    exact h.fixes.congruence.lowerBinary (iha h ha hx hx') (ihb h hb hy hy') hc hc'
  | quant i q bs r b ts ind ihr ihb iht =>
    intro v s f Γ a a' h he ha ha'
    obtain ⟨hbs, hr, hb⟩ := he.binders
    rw [Expr.scoped?_iff] at hr
    obtain ⟨inner, henter, hinner, hpart⟩ := h.enter bs b (r.toList ++ ts.flatten) hbs (by
      intro d hd x hx hbound
      refine he.agree x (Expr.mem_without.2 ⟨?_, hbound⟩)
      simp only [List.mem_cons, List.mem_append, Option.mem_toList, List.mem_flatten] at hd
      simp only [List.mem_append]
      rcases hd with rfl | hd | ⟨t, ht, hd⟩
      · exact .inl (.inr hx)
      · exact .inl (.inl (Expr.mem_freeVars?.2 ⟨d, hd, hx⟩))
      · exact .inr (Expr.mem_freeVarsTriggers.2 ⟨t, ht, d, hd, hx⟩))
    rw [Expr.subst_quant, henter] at ha'
    simp only [Subst.rebind_self] at ha'
    obtain ⟨w, hw, u, hu, x, hx, ts₁, -, rfl⟩ := returns_lowerExpr_quant.1 ha
    obtain ⟨w', hw', u', hu', x', hx', ts₂, -, rfl⟩ := returns_lowerExpr_quant.1 ha'
    have hwheres := hinner.fixes.where_keep
      (fun b hb => keep_of_mem (List.mem_map_of_mem hb)) hw hw'
    have hrange : Copied k (keep (bs.map (·.1)) f) (u.getD .tt) (u'.getD .tt) := by
      cases lowerExpr?_copies ihr hinner (fun d hd => hpart d
          (List.mem_cons_of_mem _ (List.mem_append_left _ (Option.mem_toList.2 hd))) (hr d hd))
        hu hu' with
      | none => exact .tt
      | some h => exact h
    have hbody := ihb hinner (hpart b (by simp) hb) hx hx'
    refine .quantify (fun b hb => ?_) ?_
    · obtain ⟨c, hc, rfl⟩ := List.mem_map.1 hb
      exact hbs c hc
    · rw [sortBinders_names]
      cases q with
      | all => exact .imp (.conj (.cons hwheres (.cons hrange .nil))) hbody
      | ex => exact .conj (.cons hwheres (.cons hrange (.cons hbody .nil)))
  | setComp i bs r t ihr iht =>
    intro v s f Γ a a' h he ha ha'
    obtain ⟨hbs, hr, ht⟩ := he.binders
    rw [Expr.scoped?_iff] at ht
    obtain ⟨inner, henter, hinner, hpart⟩ := h.enter bs r t.toList hbs (by
      intro d hd x hx hbound
      refine he.agree x (Expr.mem_without.2 ⟨?_, hbound⟩)
      simp only [List.mem_cons, Option.mem_toList] at hd
      rcases hd with rfl | hd
      · exact List.mem_append_left _ hx
      · exact List.mem_append_right _ (Expr.mem_freeVars?.2 ⟨d, hd, hx⟩))
    rw [Expr.subst_setComp (by rw [henter]), henter] at ha'
    obtain ⟨w, hw, x, hx, p, hp, rfl⟩ := returns_lowerExpr_setComp.1 ha
    obtain ⟨w', hw', x', hx', p', hp', rfl⟩ := returns_lowerExpr_setComp.1 ha'
    have hwheres := hinner.fixes.where_keep
      (fun b hb => keep_of_mem (List.mem_map_of_mem hb)) hw hw'
    have hrange := ihr hinner (hpart r (by simp) hr) hx hx'
    exact .app₁ (h.fixes.congruence.boxes (setPredicate_copies iht h.fixes hinner hbs
      (fun d hd => hpart d (List.mem_cons_of_mem _ (Option.mem_toList.2 hd)) (ht d hd))
      hwheres hrange hp hp'))
  | mapComp i b r t ihr iht =>
    intro v s f Γ a a' h he ha ha'
    obtain ⟨hb, hr, ht⟩ := he.binders
    obtain ⟨inner, henter, hinner, hpart⟩ := h.enter [b] r [t] (by simpa using hb) (by
      intro d hd x hx hbound
      refine he.agree x (Expr.mem_without.2 ⟨?_, by simpa using hbound⟩)
      simp only [List.mem_cons, List.not_mem_nil, or_false] at hd
      rcases hd with rfl | rfl
      · exact List.mem_append_left _ hx
      · exact List.mem_append_right _ hx)
    rw [Expr.subst_mapComp, henter] at ha'
    simp only [List.map_cons, List.map_nil, List.headD_cons, lowerExpr, ExprM.returns_bind,
      ExprM.returns_pure] at ha ha'
    obtain ⟨kt, hkt, w, hw, x, hx, y, hy, rfl⟩ := ha
    obtain ⟨kt', hkt', w', hw', x', hx', y', hy', rfl⟩ := ha'
    obtain rfl := hkt.unique hkt'
    have hwheres := hinner.fixes.where_keep
      (fun b hb => keep_of_mem (List.mem_map_of_mem hb)) hw hw'
    have hrange := ihr hinner (hpart r (by simp) hr) hx hx'
    have hterm := hpart t (by simp) ht
    rw [Expr.typ_subst_copies hinner.copies hterm.binders]
    refine .app₂ (.app₁ (h.fixes.congruence.boxes (letUnboxed_copies h.fixes hb ?_)))
      (h.fixes.congruence.boxes (letUnboxed_copies h.fixes hb ?_))
    · exact .conj (.cons hwheres (.cons hrange .nil))
    · exact hinner.fixes.congruence.box (hinner.fixes.congruence.convert
        (iht hinner hterm hy hy'))
  | letIn i bs b ihbs ihb =>
    intro v s f Γ a a' h he ha ha'
    obtain ⟨hbs, hvalues, hb⟩ := he.binders
    rw [Expr.scopedBindings_iff] at hvalues
    have hnames : (bs.map fun p => (p.1, p.2.typ)).map (·.1) = bs.map (·.1) := by simp
    obtain ⟨inner, henter, hinner, hpart⟩ :=
      h.enter (bs.map fun p => (p.1, p.2.typ)) b []
      (fun b hb => by obtain ⟨p, hp, rfl⟩ := List.mem_map.1 hb; exact hbs p hp) (by
        intro d hd x hx hbound
        obtain rfl := List.mem_singleton.1 hd
        rw [hnames] at hbound
        refine he.agree x ?_
        simp [Expr.freeVars, Expr.mem_without, hx, hbound])
    rw [Expr.subst_letIn, henter, hnames] at ha'
    simp only [lowerExpr, ExprM.returns_bind, ExprM.returns_pure] at ha ha'
    obtain ⟨us, hus, x, hx, rfl⟩ := ha
    obtain ⟨us', hus', x', hx', rfl⟩ := ha'
    rw [List.zip_map', ] at hus'
    obtain ⟨husn, husv⟩ := lowerBindings_copies ihbs h (fun p hp => he.part (hvalues p hp)
      fun y hy => by
        simp only [Expr.freeVars, List.mem_append]
        exact .inl (Expr.mem_freeVarsBindings.2 ⟨p, hp, hy⟩)) hus hus'
    refine .lets husv (fun u hu => ?_) ?_
    · have hu : u.1 ∈ bs.map (·.1) := husn ▸ List.mem_map_of_mem hu
      obtain ⟨p, hp, he⟩ := List.mem_map.1 hu
      exact he ▸ hbs p hp
    · rw [husn, ← hnames]
      exact ihb hinner (hpart b (by simp) hb) hx hx'
  | ite i c a b ihc iha ihb =>
    intro v s f Γ d d' h he hd hd'
    simp only [Expr.subst_ite, lowerExpr, ExprM.returns_bind, ExprM.returns_pure] at hd hd'
    obtain ⟨x, hx, y, hy, z, hz, rfl⟩ := hd
    obtain ⟨x', hx', y', hy', z', hz', rfl⟩ := hd'
    have hc := he.part he.binders.1 fun x hx => by simp [Expr.freeVars, hx]
    have ha := he.part he.binders.2.1 fun x hx => by simp [Expr.freeVars, hx]
    have hb := he.part he.binders.2.2 fun x hx => by simp [Expr.freeVars, hx]
    rw [Expr.typ_subst_copies h.copies ha.binders, Expr.typ_subst_copies h.copies hb.binders]
    exact .cond (ihc h hc hz hz') (h.fixes.congruence.convert (iha h ha hx hx'))
      (h.fixes.congruence.convert (ihb h hb hy hy'))
  | cases i e arms ihe iharms =>
    intro v s f Γ a a' h he ha ha'
    obtain ⟨hscr, harms⟩ := he.binders
    have hpart : Copyable env k s f Γ e := he.part hscr fun y hy => by simp [Expr.freeVars, hy]
    rw [Expr.subst_cases] at ha'
    obtain ⟨x, hx, dt, hdt, d, hd, ha⟩ := returns_lowerExpr_cases.1 ha
    obtain ⟨x', hx', dt', hdt', d', hd', ha'⟩ := returns_lowerExpr_cases.1 ha'
    rw [Expr.typ_subst_copies h.copies hpart.binders] at hdt'
    obtain rfl := hdt.unique hdt'
    obtain rfl : d = d' := Except.ok.inj (hd.symm.trans hd')
    obtain ⟨args, ht⟩ := returns_matchedDatatype.1 hdt
    have harms := lowerArms_copies iharms h ht hd harms
      (fun y hy => he.agree y (by simp [Expr.freeVars, hy])) (ihe h hpart hx hx') ha ha'
    cases harms with
    | some h => exact h
  | call i g r es ihr ihes =>
    intro v s f Γ a a' h he ha ha'
    obtain ⟨hr, hes⟩ := he.binders
    rw [Expr.scoped?_iff] at hr
    rw [Expr.scopedList_iff] at hes
    rw [Expr.subst_call] at ha'
    obtain ⟨callee, hcallee, layer, hlayer, us, hus, ws, hws, rfl⟩ := returns_lowerExpr_call.1 ha
    obtain ⟨callee', hcallee', layer', hlayer', us', hus', ws', hws', rfl⟩ :=
      returns_lowerExpr_call.1 ha'
    obtain rfl : callee = callee' := Except.ok.inj (hcallee.symm.trans hcallee')
    obtain rfl := hlayer.unique hlayer'
    have hheap : List.Forall₂ (Copied k f) (heapArgs v callee) (heapArgs v callee) := by
      unfold heapArgs
      split
      · exact .nil
      · exact .cons h.fixes.congruence.heap .nil
    refine h.fixes.congruence.convert (.app (List.rel_append (List.rel_append hheap
      (receiverArgs_copies ihr h (fun d hd => he.part (hr d hd) fun y hy => ?_) hus hus'))
      (lowerArgs_copies ihes h (fun d hd => he.part (hes d hd) fun y hy => ?_) hws hws')))
    · simp [Expr.freeVars, Expr.mem_freeVars?.2 ⟨d, hd, hy⟩]
    · simp [Expr.freeVars, Expr.mem_freeVarsList.2 ⟨d, hd, hy⟩]

end

end ContractLowering
