import ContractLowering.Lowering.Induction
import ContractLowering.Proofs.IL.Rename
import ContractLowering.Proofs.Lowering.ExprReturns
import ContractLowering.Proofs.Lowering.Stable

/-!
# Relations that lowering respects

A relation between expressions is compatible if what is built from related expressions is related,
and a congruence if besides the names that lowered code mentions on its own account (`Reserved`) are
related to themselves. Every operation of expression lowering then takes related operands to related
results, whatever the relation is: a renaming, or the change of bound names.
-/

namespace ContractLowering

open IL Source

/-! ## Names that lowered code mentions -/

/-- The constants of the heap model and of collections that lowered expressions mention. -/
def preludeConstants : List String :=
  ["null", "alloc", "Set.Empty", "MultiSet.Empty", "Seq.Empty", "Map.Empty"]

/-- The variables that lowered expressions bind beside those of the source. -/
inductive Generated : String → Prop where
  | box : Generated Naming.boxVar
  | boxAt (depth : Nat) : Generated (WhereClause.boxVar depth)
  | indexAt (depth : Nat) : Generated (WhereClause.indexVar depth)

/-- The names that lowered expressions mention beside the variables of the source. -/
inductive Reserved (env : Env) (v : View) : String → Prop where
  | const {x : String} (h : x ∈ preludeConstants) : Reserved env v x
  | cls (p : Path) : Reserved env v (Naming.cls p)
  | field {f : Field} (h : env.context.field f.id = .ok f) : Reserved env v (env.handle f).name
  | this : Reserved env v (v.this.getD Naming.this)
  | heap {x : String} (h : x ∈ v.heap.names) : Reserved env v x
  | oldHeap {x : String} (h : x ∈ v.oldHeap.names) : Reserved env v x
  | generated {x : String} (h : Generated x) : Reserved env v x

theorem Reserved.of_old {env : Env} {v : View} {x : String} (h : Reserved env v.old x) :
    Reserved env v x := by
  cases h with
  | const h => exact .const h
  | cls p => exact .cls p
  | field h => exact .field h
  | this => exact .this
  | heap h => exact .oldHeap h
  | oldHeap h => exact .oldHeap h
  | generated h => exact .generated h

/-! ## Compatible relations -/

/-- Two expressions apply the same box or unbox function to related arguments, or none. -/
inductive Boxing.Alike (R : IL.Expr → IL.Expr → Prop) (a a' : IL.Expr) : Prop where
  | none (h : applied? a = none) (h' : applied? a' = none)
  | boxed {s : Prelude.BoxSort} {inner inner' : IL.Expr} (hR : R inner inner')
      (h : applied? a = some (.boxed s inner)) (h' : applied? a' = some (.boxed s inner'))
  | unboxed {s : Prelude.BoxSort} {inner inner' : IL.Expr} (hR : R inner inner')
      (h : applied? a = some (.unboxed s inner)) (h' : applied? a' = some (.unboxed s inner'))

/-- Applications of one function to related arguments. -/
theorem Boxing.Alike.app {R : IL.Expr → IL.Expr → Prop} {g : String} {as as' : List IL.Expr}
    (h : List.Forall₂ R as as') : Alike R (.app g as) (.app g as') := by
  rcases h with _ | ⟨hx, _ | ⟨_, _⟩⟩
  · exact .none rfl rfl
  · cases hbox : Prelude.BoxSort.ofBoxName? g with
    | some s => exact .boxed (s := s) hx (by simp [applied?, hbox]) (by simp [applied?, hbox])
    | none =>
      cases hunbox : Prelude.BoxSort.ofUnboxName? g with
      | some s =>
        exact .unboxed (s := s) hx (by simp [applied?, hbox, hunbox])
          (by simp [applied?, hbox, hunbox])
      | none => exact .none (by simp [applied?, hbox, hunbox]) (by simp [applied?, hbox, hunbox])
  · exact .none rfl rfl

/-- A relation that relates applications to applications of the same function only. -/
theorem Boxing.Alike.of_apps {R : IL.Expr → IL.Expr → Prop} {a a' : IL.Expr} (h : R a a')
    (hleft : ∀ {g as b}, R (.app g as) b → ∃ as', b = .app g as' ∧ List.Forall₂ R as as')
    (hright : ∀ {g as' a}, R a (.app g as') → ∃ as, a = .app g as) : Alike R a a' := by
  by_cases ha : ∃ g as, a = .app g as
  · obtain ⟨g, as, rfl⟩ := ha
    obtain ⟨as', rfl, has⟩ := hleft h
    exact .app has
  · have ha' : ¬ ∃ g as, a' = .app g as := by
      rintro ⟨g, as', rfl⟩
      obtain ⟨as, rfl⟩ := hright h
      exact ha ⟨g, as, rfl⟩
    have other {e : IL.Expr} (he : ¬ ∃ g as, e = .app g as) : applied? e = Option.none := by
      cases e with
      | app g as => exact absurd ⟨g, as, rfl⟩ he
      | _ => rfl
    exact .none (other ha) (other ha')

/-- A relation between expressions that the constructors of lowered code respect. Boxes are related
to boxes of the same sort only. -/
structure Compatible (R : IL.Expr → IL.Expr → Prop) : Prop where
  bool : ∀ b, R (.bool b) (.bool b)
  num : ∀ d, R (.num d) (.num d)
  app : ∀ {g as as'}, List.Forall₂ R as as' → R (.app g as) (.app g as')
  binary : ∀ {op a a' b b'}, R a a' → R b b' → R (.binary op a b) (.binary op a' b')
  multi : ∀ {op as as'}, List.Forall₂ R as as' → R (.multi op as) (.multi op as')
  neg : ∀ {a a'}, R a a' → R a.neg a'.neg
  conj : ∀ {as as'}, List.Forall₂ R as as' → R (.conj as) (.conj as')
  disj : ∀ {as as'}, List.Forall₂ R as as' → R (.disj as) (.disj as')
  imp : ∀ {a a' b b'}, R a a' → R b b' → R (.imp a b) (.imp a' b')
  cond : ∀ {a a' b b' c c'}, R a a' → R b b' → R c c' → R (.cond a b c) (.cond a' b' c')
  applied : ∀ {a a'}, R a a' → Boxing.Alike R a a'

namespace Compatible

variable {R : IL.Expr → IL.Expr → Prop} (hR : Compatible R) {a a' b b' c c' : IL.Expr}
include hR

theorem tt : R .tt .tt := hR.bool true

theorem nat (n : Nat) : R (.nat n) (.nat n) := hR.num _

theorem app₁ {g : String} (h : R a a') : R (.app g [a]) (.app g [a']) := hR.app (.cons h .nil)

theorem app₂ {g : String} (h : R a a') (h' : R b b') : R (.app g [a, b]) (.app g [a', b']) :=
  hR.app (.cons h (.cons h' .nil))

theorem app₃ {g : String} (h : R a a') (h' : R b b') (h'' : R c c') :
    R (.app g [a, b, c]) (.app g [a', b', c']) :=
  hR.app (.cons h (.cons h' (.cons h'' .nil)))

theorem multi₂ {op : MultiOp} (h : R a a') (h' : R b b') :
    R (.multi op [a, b]) (.multi op [a', b']) :=
  hR.multi (.cons h (.cons h' .nil))

theorem conj₂ (h : R a a') (h' : R b b') : R (.conj [a, b]) (.conj [a', b']) :=
  hR.conj (.cons h (.cons h' .nil))

theorem disj₂ (h : R a a') (h' : R b b') : R (.disj [a, b]) (.disj [a', b']) :=
  hR.disj (.cons h (.cons h' .nil))

theorem ne (h : R a a') (h' : R b b') : R (.ne a b) (.ne a' b') := hR.neg (hR.binary h h')

/-! ### Boxes -/

theorem box {t : Typ} (h : R a a') : R (Boxing.box t a) (Boxing.box t a') := by
  unfold Boxing.box
  cases t.boxSort? with
  | none => exact h
  | some s =>
    cases hR.applied h with
    | none ha ha' => simpa only [ha, ha'] using hR.app₁ h
    | boxed _ ha ha' => simpa only [ha, ha'] using h
    | unboxed hi ha ha' =>
      simp only [ha, ha']
      split
      · exact hi
      · exact hR.app₁ h

theorem unbox {t : Typ} (h : R a a') : R (Boxing.unbox t a) (Boxing.unbox t a') := by
  unfold Boxing.unbox
  cases t.boxSort? with
  | none => exact h
  | some s =>
    cases hR.applied h with
    | none ha ha' => simpa only [ha, ha'] using hR.app₁ h
    | boxed hi ha ha' =>
      simp only [ha, ha']
      split
      · exact hi
      · exact hR.app₁ h
    | unboxed _ ha ha' => simpa only [ha, ha'] using h

theorem convert {s t : Typ} (h : R a a') :
    R (Boxing.convert s t a) (Boxing.convert s t a') := by
  unfold Boxing.convert Boxing.unboxTo Boxing.boxTo
  split
  · split
    · exact hR.unbox (hR.box h)
    · exact hR.unbox h
  · split
    · exact hR.box h
    · exact h

/-! ### Operators -/

section

variable {env : Env}

theorem lowerUpdate {coll value : Typ} {d d' : IL.Expr} (ha : R a a') (hb : R b b') (hc : R c c')
    (hd : (ContractLowering.lowerUpdate coll value a b c).Returns env d)
    (hd' : (ContractLowering.lowerUpdate coll value a' b' c').Returns env d') : R d d' := by
  cases coll with
  | seq elem =>
    simp only [ContractLowering.lowerUpdate, ExprM.returns_pure] at hd hd'
    subst hd hd'
    exact hR.app₃ ha hb (hR.box (hR.convert hc))
  | map key mapped =>
    simp only [ContractLowering.lowerUpdate, ExprM.returns_pure] at hd hd'
    subst hd hd'
    exact hR.app₃ ha (hR.box hb) (hR.box (hR.convert hc))
  | _ => simp [ContractLowering.lowerUpdate] at hd

theorem lowerCard {t : Typ} {size size' : IL.Expr → IL.Expr} (ha : R a a')
    (hs : (ContractLowering.lowerCard t).Returns env size)
    (hs' : (ContractLowering.lowerCard t).Returns env size') : R (size a) (size' a') := by
  obtain rfl := hs.unique hs'
  cases t with
  | set | multiset | seq | map =>
    simp only [ContractLowering.lowerCard, ExprM.returns_pure] at hs
    subst hs
    exact hR.app₁ ha
  | _ => simp [ContractLowering.lowerCard] at hs

theorem lowerMem {t : Typ} (ha : R a a') (hb : R b b')
    (hc : (ContractLowering.lowerMem t a b).Returns env c)
    (hc' : (ContractLowering.lowerMem t a' b').Returns env c') : R c c' := by
  cases t with
  | set | seq =>
    simp only [ContractLowering.lowerMem, ExprM.returns_pure] at hc hc'
    subst hc hc'
    exact hR.app₂ ha hb
  | multiset =>
    simp only [ContractLowering.lowerMem, ExprM.returns_pure] at hc hc'
    subst hc hc'
    exact hR.binary (hR.nat 0) (hR.app₂ ha hb)
  | map =>
    simp only [ContractLowering.lowerMem, ExprM.returns_pure] at hc hc'
    subst hc hc'
    exact hR.app₂ (hR.app₁ ha) hb
  | _ => simp [ContractLowering.lowerMem] at hc

theorem typedEq {t : Typ} (ha : R a a') (hb : R b b') :
    R (ContractLowering.typedEq t a b) (ContractLowering.typedEq t a' b') := by
  cases t with
  | set | multiset | seq | map => exact hR.app₂ ha hb
  | _ => exact hR.binary ha hb

theorem collectionBelow {proper : Bool} {t : Typ} (ha : R a a') (hb : R b b')
    (hc : (ContractLowering.collectionBelow proper t a b).Returns env c)
    (hc' : (ContractLowering.collectionBelow proper t a' b').Returns env c') : R c c' := by
  cases t with
  | set | multiset =>
    simp only [ContractLowering.collectionBelow, ExprM.returns_pure] at hc hc'
    subst hc hc'
    cases proper with
    | true => exact hR.conj₂ (hR.app₂ ha hb) (hR.neg (hR.app₂ ha hb))
    | false => exact hR.app₂ ha hb
  | seq =>
    simp only [ContractLowering.collectionBelow, ExprM.returns_pure] at hc hc'
    subst hc hc'
    cases proper with
    | true | false =>
      exact hR.conj₂ (hR.binary (hR.app₁ ha) (hR.app₁ hb)) (hR.app₃ ha hb (hR.app₁ ha))
  | _ => simp [ContractLowering.collectionBelow] at hc

theorem lowerCompare {op : IL.BinOp} {proper swapped : Bool} {t : Typ} (ha : R a a')
    (hb : R b b') (hc : (ContractLowering.lowerCompare op proper swapped t a b).Returns env c)
    (hc' : (ContractLowering.lowerCompare op proper swapped t a' b').Returns env c') :
    R c c' := by
  unfold ContractLowering.lowerCompare at hc hc'
  cases hcoll : t.isCollection with
  | false =>
    simp only [hcoll, Bool.false_eq_true, if_false, ExprM.returns_pure] at hc hc'
    subst hc hc'
    exact hR.binary ha hb
  | true =>
    cases swapped with
    | true =>
      simp only [hcoll, if_true] at hc hc'
      exact hR.collectionBelow hb ha hc hc'
    | false =>
      simp only [hcoll, Bool.false_eq_true, if_true, if_false] at hc hc'
      exact hR.collectionBelow ha hb hc hc'

theorem lowerArith {op : MultiOp} {t : Typ} (ha : R a a') (hb : R b b')
    (hc : (ContractLowering.lowerArith op t a b).Returns env c)
    (hc' : (ContractLowering.lowerArith op t a' b').Returns env c') : R c c' := by
  cases t with
  | set | multiset =>
    cases op <;> simp only [ContractLowering.lowerArith, ExprM.returns_pure] at hc hc' <;>
      subst hc hc' <;> exact hR.app₂ ha hb
  | seq =>
    cases op with
    | add =>
      simp only [ContractLowering.lowerArith, ExprM.returns_pure] at hc hc'
      subst hc hc'
      exact hR.app₂ ha hb
    | _ => simp [ContractLowering.lowerArith] at hc
  | _ =>
    simp only [ContractLowering.lowerArith, ExprM.returns_pure] at hc hc'
    subst hc hc'
    exact hR.multi₂ ha hb

theorem lowerBinary {op : Source.BinOp} {t₁ t₂ : Typ} (ha : R a a') (hb : R b b')
    (hc : (ContractLowering.lowerBinary op t₁ t₂ a b).Returns env c)
    (hc' : (ContractLowering.lowerBinary op t₁ t₂ a' b').Returns env c') : R c c' := by
  cases op with
  | and =>
    simp only [ContractLowering.lowerBinary, ExprM.returns_pure] at hc hc'
    subst hc hc'
    exact hR.conj₂ ha hb
  | or =>
    simp only [ContractLowering.lowerBinary, ExprM.returns_pure] at hc hc'
    subst hc hc'
    exact hR.disj₂ ha hb
  | implies =>
    simp only [ContractLowering.lowerBinary, ExprM.returns_pure] at hc hc'
    subst hc hc'
    exact hR.imp ha hb
  | iff | div | mod =>
    simp only [ContractLowering.lowerBinary, ExprM.returns_pure] at hc hc'
    subst hc hc'
    exact hR.binary ha hb
  | eq =>
    simp only [ContractLowering.lowerBinary, ExprM.returns_pure] at hc hc'
    subst hc hc'
    exact hR.typedEq ha (hR.convert hb)
  | ne =>
    simp only [ContractLowering.lowerBinary, ExprM.returns_pure] at hc hc'
    subst hc hc'
    exact hR.neg (hR.typedEq ha (hR.convert hb))
  | lt | le | gt | ge => exact hR.lowerCompare ha hb hc hc'
  | add | sub | mul => exact hR.lowerArith ha hb hc hc'
  | mem => exact hR.lowerMem hb (hR.box ha) hc hc'
  | notMem =>
    simp only [ContractLowering.lowerBinary, ExprM.returns_bind, ExprM.returns_pure] at hc hc'
    obtain ⟨m, hm, rfl⟩ := hc
    obtain ⟨m', hm', rfl⟩ := hc'
    exact hR.neg (hR.lowerMem hb (hR.box ha) hm hm')
  | disjoint =>
    cases t₁ <;> simp only [ContractLowering.lowerBinary, ExprM.returns_pure] at hc hc' <;>
      subst hc hc' <;> exact hR.app₂ ha hb

theorem seqSlice {o o' u u' : Option IL.Expr} (ha : R a a') (ho : Option.Rel R o o')
    (hu : Option.Rel R u u') :
    R (ContractLowering.seqSlice a o u) (ContractLowering.seqSlice a' o' u') := by
  cases ho with
  | none =>
    cases hu with
    | none => exact ha
    | some hu => exact hR.app₂ ha hu
  | some ho =>
    cases hu with
    | none => exact hR.app₂ ha ho
    | some hu => exact hR.app₂ (hR.app₂ ha ho) (hR.multi₂ hu ho)

end

end Compatible

/-! ## Congruences -/

/-- A compatible relation between code of two views that see calls alike: it relates the names of
lowered code, the receivers and heaps of the views and what binds variables of lowered code. -/
structure Congruence (env : Env) (v v' : View) (R : IL.Expr → IL.Expr → Prop) : Prop
    extends Compatible R where
  layer : v'.layer = v.layer
  const : ∀ {x}, x ∈ preludeConstants → R (.var x) (.var x)
  cls : ∀ p, R (.var (Naming.cls p)) (.var (Naming.cls p))
  field : ∀ {f}, env.context.field f.id = .ok f →
    R (.var (env.handle f).name) (.var (env.handle f).name)
  this : R (.var (v.this.getD Naming.this)) (.var (v'.this.getD Naming.this))
  generated : ∀ {x}, Generated x → R (.var x) (.var x)
  heap : R v.heap v'.heap
  oldHeap : R v.oldHeap v'.oldHeap
  elements : ∀ {x s ts ts' a a'}, Generated x → List.Forall₂ (List.Forall₂ R) ts ts' → R a a' →
    R (.all [(x, s)] ts a) (.all [(x, s)] ts' a')
  boxes : ∀ {a a'}, R a a' → R (boxLambda a) (boxLambda a')

namespace Congruence

/-- A relation between code of one view that relates the names of lowered code to themselves. -/
theorem of_reserved {env : Env} {v : View} {R : IL.Expr → IL.Expr → Prop} (hR : Compatible R)
    (reserved : ∀ {x}, Reserved env v x → R (.var x) (.var x)) (heap : R v.heap v.heap)
    (oldHeap : R v.oldHeap v.oldHeap)
    (elements : ∀ {x s ts ts' a a'}, Generated x → List.Forall₂ (List.Forall₂ R) ts ts' → R a a' →
      R (.all [(x, s)] ts a) (.all [(x, s)] ts' a'))
    (boxes : ∀ {a a'}, R a a' → R (boxLambda a) (boxLambda a')) : Congruence env v v R where
  toCompatible := hR
  layer := rfl
  const hx := reserved (.const hx)
  cls p := reserved (.cls p)
  field hf := reserved (.field hf)
  this := reserved .this
  generated hx := reserved (.generated hx)
  heap := heap
  oldHeap := oldHeap
  elements := elements
  boxes := boxes

variable {env : Env} {v v' : View} {R : IL.Expr → IL.Expr → Prop} (hR : Congruence env v v' R)
  {a a' b b' c c' h h' : IL.Expr}
include hR

theorem old : Congruence env v.old v'.old R := { hR with heap := hR.oldHeap }

theorem null : R Prelude.null Prelude.null := hR.const (by simp [preludeConstants])

theorem alloc : R Prelude.alloc Prelude.alloc := hR.const (by simp [preludeConstants])

/-! ### Where clauses -/

theorem isAlloc (hh : R h h') (ha : R a a') : R (Heap.isAlloc h a) (Heap.isAlloc h' a') :=
  hR.app₁ (hR.app₃ hh ha hR.alloc)

theorem isFresh (hh : R h h') (ha : R a a') : R (Heap.isFresh h a) (Heap.isFresh h' a') :=
  hR.conj₂ (hR.ne ha hR.null) (hR.neg (hR.isAlloc hh ha))

theorem dtype (p : Path) (ha : R a a') :
    R (.eq (Prelude.dtype a) (.var (Naming.cls p)))
      (.eq (Prelude.dtype a') (.var (Naming.cls p))) :=
  hR.binary (hR.app₁ ha) (hR.cls p)

theorem orNull (ha : R a a') (hb : R b b') :
    R (WhereClause.orNull a b) (WhereClause.orNull a' b') :=
  hR.disj₂ (hR.binary ha hR.null) hb

theorem pairwiseExclusive {ts ts' : List IL.Expr} (ht : List.Forall₂ R ts ts') :
    List.Forall₂ R (WhereClause.pairwiseExclusive ts) (WhereClause.pairwiseExclusive ts') := by
  induction ht with
  | nil => exact .nil
  | cons ht hts ih =>
    refine List.rel_append ?_ ih
    rw [List.forall₂_map_left_iff, List.forall₂_map_right_iff]
    exact hts.imp fun _ _ hu => hR.neg (hR.conj₂ ht hu)

theorem ofDatatype {extended : Bool} {p : Path} (ha : R a a') (hh : R h h')
    (hb : (WhereClause.ofDatatype extended p a h).Returns env b)
    (hb' : (WhereClause.ofDatatype extended p a' h').Returns env b') : R b b' := by
  simp only [WhereClause.ofDatatype, ExprM.returns_bind, ExprM.returns_datatype,
    ExprM.returns_pure] at hb hb'
  obtain ⟨d, hd, rfl⟩ := hb
  obtain ⟨d', hd', rfl⟩ := hb'
  obtain rfl : d = d' := Except.ok.inj (hd.symm.trans hd')
  have tests : List.Forall₂ R
      (d.ctors.map fun c => IL.Expr.app (Naming.isCtor p c.name) [a])
      (d.ctors.map fun c => IL.Expr.app (Naming.isCtor p c.name) [a']) := by
    rw [List.forall₂_map_left_iff, List.forall₂_map_right_iff]
    exact List.forall₂_same.2 fun _ _ => hR.app₁ ha
  refine hR.conj (.cons (hR.app₂ ha hh) (.cons (hR.disj tests) ?_))
  cases extended with
  | true => exact hR.pairwiseExclusive tests
  | false => exact .nil

theorem both {o o' u u' : Option IL.Expr} (ho : Option.Rel R o o') (hu : Option.Rel R u u') :
    Option.Rel R (WhereClause.both o u) (WhereClause.both o' u') := by
  cases ho with
  | none =>
    cases hu with
    | none => exact .none
    | some hu => exact .some (hR.conj (.cons hu .nil))
  | some ho =>
    cases hu with
    | none => exact .some (hR.conj (.cons ho .nil))
    | some hu => exact .some (hR.conj₂ ho hu)

/-- A fact about elements that a term picks out, which is also the trigger. -/
theorem element {x : String} (hx : Generated x) {s : Srt} (ht : R c c') (ha : R a a')
    (hb : R b b') :
    R (.all [(x, s)] [[c]] (.imp a b)) (.all [(x, s)] [[c']] (.imp a' b')) :=
  hR.elements hx (.cons (.cons ht .nil) .nil) (hR.imp ha hb)

/-- The where clauses of related values. -/
theorem clause (hh : R h h') {extended : Bool} {depth : Nat} {t : Typ} {o o' : Option IL.Expr}
    (ha : R a a') (ho : (WhereClause.clause extended h depth t a).Returns env o)
    (ho' : (WhereClause.clause extended h' depth t a').Returns env o') : Option.Rel R o o' := by
  have box (k : Nat) : R (.var (WhereClause.boxVar k)) (.var (WhereClause.boxVar k)) :=
    hR.generated (.boxAt k)
  have index (k : Nat) : R (.var (WhereClause.indexVar k)) (.var (WhereClause.indexVar k)) :=
    hR.generated (.indexAt k)
  fun_induction WhereClause.clause extended h depth t a generalizing a' o o' with
  | case1 | case2 | case3 =>
    simp only [WhereClause.clause, ExprM.returns_pure] at ho ho'
    subst ho ho'
    exact .none
  | case4 =>
    simp only [WhereClause.clause, ExprM.returns_pure] at ho ho'
    subst ho ho'
    exact .some (hR.binary (hR.nat 0) ha)
  | case5 =>
    simp only [WhereClause.clause, ExprM.returns_bind, Heap.returns_dtypeIs, ExprM.returns_pure,
      exists_eq_left] at ho ho'
    subst ho ho'
    exact .some (hR.orNull ha (hR.conj₂ (hR.isAlloc hh ha) (hR.dtype _ ha)))
  | case6 =>
    simp only [WhereClause.clause, ExprM.returns_bind, Heap.returns_dtypeIs, ExprM.returns_pure,
      exists_eq_left] at ho ho'
    subst ho ho'
    exact .some (hR.orNull ha (hR.conj₂ (hR.isAlloc hh ha) (hR.dtype _ ha)))
  | case7 =>
    simp only [WhereClause.clause, ExprM.returns_pure] at ho ho'
    subst ho ho'
    exact .some (hR.orNull ha (hR.isAlloc hh ha))
  | case8 =>
    simp only [WhereClause.clause, ExprM.returns_bind, ExprM.returns_pure] at ho ho'
    obtain ⟨b, hb, rfl⟩ := ho
    obtain ⟨b', hb', rfl⟩ := ho'
    exact .some (hR.ofDatatype ha hh hb hb')
  | case9 depth elem a x =>
    rename_i ih
    simp only [WhereClause.clause, ExprM.returns_bind, ExprM.returns_pure] at ho ho'
    obtain ⟨w, hw, rfl⟩ := ho
    obtain ⟨w', hw', rfl⟩ := ho'
    have hmem : R (Prelude.setMem a (.var x)) (Prelude.setMem a' (.var x)) :=
      hR.app₂ ha (box depth)
    refine hR.both ?_ ?_
    · cases extended with
      | true => exact .some (hR.app₁ ha)
      | false => exact .none
    · cases ih (hR.unbox (box depth)) hw hw' with
      | none => exact .none
      | some hin => exact .some (hR.element (.boxAt depth) hmem hmem hin)
  | case10 depth elem a x =>
    rename_i ih
    simp only [WhereClause.clause, ExprM.returns_bind, ExprM.returns_pure] at ho ho'
    obtain ⟨w, hw, rfl⟩ := ho
    obtain ⟨w', hw', rfl⟩ := ho'
    have hmem : R (Prelude.multiplicity a (.var x)) (Prelude.multiplicity a' (.var x)) :=
      hR.app₂ ha (box depth)
    refine hR.both ?_ ?_
    · cases extended with
      | true => exact .some (hR.app₁ ha)
      | false => exact .none
    · cases ih (hR.unbox (box depth)) hw hw' with
      | none => exact .none
      | some hin =>
        exact .some (hR.element (.boxAt depth) hmem (hR.binary (hR.nat 0) hmem) hin)
  | case11 depth elem a i =>
    rename_i ih
    simp only [WhereClause.clause, ExprM.returns_bind, ExprM.returns_pure] at ho ho'
    obtain ⟨w, hw, rfl⟩ := ho
    obtain ⟨w', hw', rfl⟩ := ho'
    have hindex := hR.app₂ (g := "Seq.Index") ha (index depth)
    cases ih (hR.unbox hindex) hw hw' with
    | none => exact .none
    | some hin =>
      exact .some (hR.element (.indexAt depth) hindex
        (hR.conj₂ (hR.binary (hR.nat 0) (index depth)) (hR.binary (index depth) (hR.app₁ ha))) hin)
  | case12 depth key value a x ihk =>
    rename_i ihv
    simp only [WhereClause.clause, ExprM.returns_bind, ExprM.returns_pure] at ho ho'
    obtain ⟨k, hk, w, hw, rfl⟩ := ho
    obtain ⟨k', hk', w', hw', rfl⟩ := ho'
    have hmem : R (Prelude.setMem (Prelude.mapDomain a) (.var x))
        (Prelude.setMem (Prelude.mapDomain a') (.var x)) := hR.app₂ (hR.app₁ ha) (box depth)
    have hboth := hR.both (ihk (hR.unbox (box depth)) hk hk')
      (ihv (hR.unbox (hR.app₂ ha (box depth))) hw hw')
    generalize WhereClause.both k w = u at hboth ⊢
    generalize WhereClause.both k' w' = u' at hboth ⊢
    cases hboth with
    | none => exact .none
    | some hin => exact .some (hR.element (.boxAt depth) hmem hmem hin)

/-- The where clauses of related variables. -/
theorem bindersWhere (hh : R h h') {bs bs' : List Source.Binder}
    (hbs : List.Forall₂ (fun b b' => b'.2 = b.2 ∧ R (.var b.1) (.var b'.1)) bs bs')
    (ha : (ContractLowering.bindersWhere h bs).Returns env a)
    (ha' : (ContractLowering.bindersWhere h' bs').Returns env a') : R a a' := by
  simp only [ContractLowering.bindersWhere, whereClauses, ExprM.returns_bind, ExprM.returns_pure,
    ExprM.returns_mapM] at ha ha'
  obtain ⟨_, ⟨os, hos, rfl⟩, rfl⟩ := ha
  obtain ⟨_, ⟨os', hos', rfl⟩, rfl⟩ := ha'
  refine hR.conj ?_
  induction hbs generalizing os os' with
  | nil => cases hos; cases hos'; exact .nil
  | cons hb _ ih =>
    obtain ⟨o, rest, ho, hrest, rfl⟩ := List.forall₂_cons_left_iff.1 hos
    obtain ⟨o', rest', ho', hrest', rfl⟩ := List.forall₂_cons_left_iff.1 hos'
    rw [hb.1] at ho'
    have hrel := ih rest hrest rest' hrest'
    cases hR.clause hh hb.2 ho ho' with
    | none => exact hrel
    | some hw => exact .cons hw hrel

/-! ### Operations that read the heap -/

theorem lowerIndex {coll idx result : Typ} (ha : R a a') (hb : R b b')
    (hc : (ContractLowering.lowerIndex v coll idx result a b).Returns env c)
    (hc' : (ContractLowering.lowerIndex v' coll idx result a' b').Returns env c') : R c c' := by
  cases coll with
  | seq elem =>
    simp only [ContractLowering.lowerIndex, ExprM.returns_pure] at hc hc'
    subst hc hc'
    exact hR.convert (hR.unbox (hR.app₂ ha hb))
  | array elem =>
    simp only [ContractLowering.lowerIndex, ExprM.returns_pure] at hc hc'
    subst hc hc'
    exact hR.convert (hR.unbox (hR.app₃ hR.heap ha (hR.app₁ hb)))
  | map key value =>
    simp only [ContractLowering.lowerIndex, ExprM.returns_pure] at hc hc'
    subst hc hc'
    exact hR.convert (hR.unbox (hR.app₂ ha (hR.box (hR.convert hb))))
  | multiset elem =>
    simp only [ContractLowering.lowerIndex, ExprM.returns_pure] at hc hc'
    subst hc hc'
    exact hR.app₂ ha (hR.box hb)
  | _ => simp [ContractLowering.lowerIndex] at hc

theorem lowerFresh (t : Typ) (ha : R a a') :
    R (ContractLowering.lowerFresh v t a) (ContractLowering.lowerFresh v' t a') := by
  have hbox : R (.var Naming.boxVar) (.var Naming.boxVar) := hR.generated .box
  have elements {m m' : IL.Expr} (hm : R m m') :
      R (.all [(Naming.boxVar, Prelude.boxSort)] [[m]]
          (.imp (.conj [m, .ne (Boxing.unboxRef (.var Naming.boxVar)) Prelude.null])
            (Heap.isFresh v.oldHeap (Boxing.unboxRef (.var Naming.boxVar)))))
        (.all [(Naming.boxVar, Prelude.boxSort)] [[m']]
          (.imp (.conj [m', .ne (Boxing.unboxRef (.var Naming.boxVar)) Prelude.null])
            (Heap.isFresh v'.oldHeap (Boxing.unboxRef (.var Naming.boxVar))))) :=
    hR.element .box hm (hR.conj₂ hm (hR.ne (hR.app₁ hbox) hR.null))
      (hR.isFresh hR.oldHeap (hR.app₁ hbox))
  cases t with
  | set | seq => exact elements (hR.app₂ ha hbox)
  | multiset => exact elements (hR.binary (hR.nat 0) (hR.app₂ ha hbox))
  | _ => exact hR.isFresh hR.oldHeap ha

/-- The values of a mutable field are read from the heap, those of others are functions. -/
theorem readField {f : Field} (hf : env.context.field f.id = .ok f) (ha : R a a') :
    R (Heap.readField v.heap a (env.handle f)) (Heap.readField v'.heap a' (env.handle f)) := by
  unfold Heap.readField
  split
  · exact hR.unbox (hR.app₃ hR.heap ha (hR.field hf))
  · exact hR.app₁ ha

end Congruence

end ContractLowering
