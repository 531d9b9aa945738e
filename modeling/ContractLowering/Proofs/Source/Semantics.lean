import ContractLowering.Proofs.Source.Scoped
import ContractLowering.Source.Subexpr

/-!
# Meaning of source expressions

A `Meaning` interprets the operations of the source language on values and states, and
`Expr.meaning` is the value of an expression in a state, where `old` leads to another one. Nothing
is assumed of the operations: a value may stand for an evaluation that fails, and an operation need
not look at all of its operands.

An environment answers for the receiver and for each variable with a value that may depend on the
state in which it is asked, so that an expression can stand in the place of a variable. What a
binder binds does not depend on it. The value of an expression depends on the environment at its
free variables only (`Expr.meaning_congr`).
-/

namespace ContractLowering.Source

/-- An interpretation of the operations. Bound variables are chosen by position, and the operations
that bind variables decide what is chosen from. -/
structure Meaning where
  Val : Type
  State : Type
  bool : Bool → Val
  int : Int → Val
  null : Val
  field : State → Val → FieldId → Val
  index : State → Val → Val → Val
  slice : State → Val → Option Val → Option Val → Val
  update : Val → Val → Val → Val
  arrayLength : Val → Val
  display : Collection → List Val → Val
  mapDisplay : List (Val × Val) → Val
  ctor : Path → String → List Val → Val
  destruct : Val → Path → String → String → Val
  isCtor : Val → Path → String → Val
  /-- `fresh` compares the old state with the one it is asked in. -/
  fresh : State → State → Val → Val
  unary : UnOp → Val → Val
  binary : BinOp → Val → Val → Val
  quant : State → Quantifier → List Typ → Option ((Nat → Val) → Val) → ((Nat → Val) → Val) → Val
  setComp : State → List Typ → ((Nat → Val) → Val) → ((Nat → Val) → Val) → Val
  mapComp : State → Typ → (Val → Val) → (Val → Val) → Val
  ite : Val → Val → Val → Val
  /-- The arms are constructors with what their bodies give for the fields. -/
  cases : Val → List (String × ((Nat → Val) → Val)) → Val
  call : State → Path → Option Val → List Val → Val

/-- The place of the last occurrence of a name. -/
def lastIndex : List String → String → Option Nat
  | [], _ => none
  | y :: ys, x =>
    match lastIndex ys x with
    | some n => some (n + 1)
    | none => if y = x then some 0 else none

namespace Meaning

variable (M : Meaning)

/-- What stands for the receiver and for variables, in each state. -/
structure Env where
  this : M.State → M.Val
  var : String → M.State → M.Val

variable {M}

/-- An environment with names bound to values, of which later ones hide earlier ones. -/
def Env.bind (ρ : M.Env) (names : List String) (a : Nat → M.Val) : M.Env :=
  { ρ with var := fun x => match lastIndex names x with
    | some n => fun _ => a n
    | none => ρ.var x }

variable (M)

/-- The value of an expression, by state and environment. -/
abbrev Denotation : Type := M.State → M.Env → M.Val

end Meaning

mutual

/-- The value of an expression. Triggers and what is said about induction have no meaning. -/
def Expr.meaning (M : Meaning) (old : M.State) : Expr → M.Denotation
  | .bool _ b => fun _ _ => M.bool b
  | .int _ n => fun _ _ => M.int n
  | .null _ => fun _ _ => M.null
  | .var _ x => fun h ρ => ρ.var x h
  | .this _ => fun h ρ => ρ.this h
  | .field _ e f => fun h ρ => M.field h (e.meaning M old h ρ) f
  | .index _ a b => fun h ρ => M.index h (a.meaning M old h ρ) (b.meaning M old h ρ)
  | .slice _ e lo hi => fun h ρ =>
    M.slice h (e.meaning M old h ρ) ((meaning? M old lo).map (· h ρ))
      ((meaning? M old hi).map (· h ρ))
  | .update _ a b c => fun h ρ =>
    M.update (a.meaning M old h ρ) (b.meaning M old h ρ) (c.meaning M old h ρ)
  | .arrayLength _ e => fun h ρ => M.arrayLength (e.meaning M old h ρ)
  | .display _ k es => fun h ρ => M.display k ((meaningList M old es).map (· h ρ))
  | .mapDisplay _ kvs => fun h ρ =>
    M.mapDisplay ((meaningEntries M old kvs).map fun p => (p.1 h ρ, p.2 h ρ))
  | .ctor _ d k es => fun h ρ => M.ctor d k ((meaningList M old es).map (· h ρ))
  | .destruct _ e d k f => fun h ρ => M.destruct (e.meaning M old h ρ) d k f
  | .isCtor _ e d k => fun h ρ => M.isCtor (e.meaning M old h ρ) d k
  | .old _ e => fun _ ρ => e.meaning M old old ρ
  | .fresh _ e => fun h ρ => M.fresh old h (e.meaning M old h ρ)
  | .unary _ op e => fun h ρ => M.unary op (e.meaning M old h ρ)
  | .binary _ op a b => fun h ρ => M.binary op (a.meaning M old h ρ) (b.meaning M old h ρ)
  | .quant _ q bs r b _ _ => fun h ρ =>
    M.quant h q (bs.map (·.2))
      ((meaning? M old r).map fun d a => d h (ρ.bind (bs.map (·.1)) a))
      (fun a => b.meaning M old h (ρ.bind (bs.map (·.1)) a))
  | .setComp _ bs r t => fun h ρ =>
    M.setComp h (bs.map (·.2)) (fun a => r.meaning M old h (ρ.bind (bs.map (·.1)) a))
      -- a missing term denotes the bound variable
      (fun a => match meaning? M old t with
        | some d => d h (ρ.bind (bs.map (·.1)) a)
        | none => a 0)
  | .mapComp _ b r t => fun h ρ =>
    M.mapComp h b.2 (fun a => r.meaning M old h (ρ.bind [b.1] fun _ => a))
      (fun a => t.meaning M old h (ρ.bind [b.1] fun _ => a))
  | .letIn _ bs b => fun h ρ =>
    b.meaning M old h
      (ρ.bind (bs.map (·.1)) fun n => ((meaningBindings M old bs).map (· h ρ)).getD n M.null)
  | .ite _ c a b => fun h ρ =>
    M.ite (c.meaning M old h ρ) (a.meaning M old h ρ) (b.meaning M old h ρ)
  | .cases _ e arms => fun h ρ =>
    M.cases (e.meaning M old h ρ) ((meaningArms M old arms).map fun p =>
      (p.1.ctor, fun a => p.2 h (ρ.bind (p.1.binders.map (·.1)) a)))
  | .call _ f r es => fun h ρ =>
    M.call h f ((meaning? M old r).map (· h ρ)) ((meaningList M old es).map (· h ρ))

/-- The value of an optional expression. -/
def Expr.meaning? (M : Meaning) (old : M.State) : Option Expr → Option M.Denotation
  | none => none
  | some e => some (e.meaning M old)

/-- The values of several expressions. -/
def Expr.meaningList (M : Meaning) (old : M.State) : List Expr → List M.Denotation
  | [] => []
  | e :: es => e.meaning M old :: meaningList M old es

/-- The values of keys and values. -/
def Expr.meaningEntries (M : Meaning) (old : M.State) :
    List (Expr × Expr) → List (M.Denotation × M.Denotation)
  | [] => []
  | (k, v) :: kvs => (k.meaning M old, v.meaning M old) :: meaningEntries M old kvs

/-- The values of what a let binds. -/
def Expr.meaningBindings (M : Meaning) (old : M.State) : List (String × Expr) → List M.Denotation
  | [] => []
  | (_, e) :: bs => e.meaning M old :: meaningBindings M old bs

/-- The values of the bodies of match cases. -/
def Expr.meaningArms (M : Meaning) (old : M.State) :
    List (Pattern × Expr) → List (Pattern × M.Denotation)
  | [] => []
  | (p, e) :: arms => (p, e.meaning M old) :: meaningArms M old arms

end

/-! ## Values by construct -/

namespace Expr

variable {M : Meaning} {old h : M.State} {ρ ρ' : M.Env} {i : Info}

theorem meaning?_eq (o : Option Expr) : meaning? M old o = o.map (meaning M old) := by
  cases o <;> rfl

theorem meaningList_eq (es : List Expr) : meaningList M old es = es.map (meaning M old) := by
  induction es with
  | nil => rfl
  | cons e es ih => exact congrArg (e.meaning M old :: ·) ih

theorem meaningEntries_eq (kvs : List (Expr × Expr)) :
    meaningEntries M old kvs = kvs.map fun p => (p.1.meaning M old, p.2.meaning M old) := by
  induction kvs with
  | nil => rfl
  | cons p kvs ih => exact congrArg ((p.1.meaning M old, p.2.meaning M old) :: ·) ih

theorem meaningBindings_eq (bs : List (String × Expr)) :
    meaningBindings M old bs = bs.map (·.2.meaning M old) := by
  induction bs with
  | nil => rfl
  | cons b bs ih => exact congrArg (b.2.meaning M old :: ·) ih

theorem meaningArms_eq (arms : List (Pattern × Expr)) :
    meaningArms M old arms = arms.map fun p => (p.1, p.2.meaning M old) := by
  induction arms with
  | nil => rfl
  | cons p arms ih => exact congrArg ((p.1, p.2.meaning M old) :: ·) ih

@[simp] theorem meaning_bool {b : Bool} : (bool i b).meaning M old h ρ = M.bool b := rfl

@[simp] theorem meaning_int {n : Int} : (int i n).meaning M old h ρ = M.int n := rfl

@[simp] theorem meaning_null : (null i).meaning M old h ρ = M.null := rfl

@[simp] theorem meaning_var {x : String} : (var i x).meaning M old h ρ = ρ.var x h := rfl

@[simp] theorem meaning_this : (this i).meaning M old h ρ = ρ.this h := rfl

@[simp] theorem meaning_field {e : Expr} {f : FieldId} :
    (field i e f).meaning M old h ρ = M.field h (e.meaning M old h ρ) f := rfl

@[simp] theorem meaning_index {a b : Expr} : (index i a b).meaning M old h ρ =
    M.index h (a.meaning M old h ρ) (b.meaning M old h ρ) := rfl

@[simp] theorem meaning_slice {e : Expr} {lo hi : Option Expr} :
    (slice i e lo hi).meaning M old h ρ = M.slice h (e.meaning M old h ρ)
      (lo.map fun a => a.meaning M old h ρ) (hi.map fun a => a.meaning M old h ρ) := by
  cases lo <;> cases hi <;> rfl

@[simp] theorem meaning_update {a b c : Expr} : (update i a b c).meaning M old h ρ =
    M.update (a.meaning M old h ρ) (b.meaning M old h ρ) (c.meaning M old h ρ) := rfl

@[simp] theorem meaning_arrayLength {e : Expr} :
    (arrayLength i e).meaning M old h ρ = M.arrayLength (e.meaning M old h ρ) := rfl

@[simp] theorem meaning_display {k : Collection} {es : List Expr} :
    (display i k es).meaning M old h ρ = M.display k (es.map fun e => e.meaning M old h ρ) := by
  show M.display k ((meaningList M old es).map (· h ρ)) = _
  rw [meaningList_eq, List.map_map]
  rfl

@[simp] theorem meaning_mapDisplay {kvs : List (Expr × Expr)} :
    (mapDisplay i kvs).meaning M old h ρ =
      M.mapDisplay (kvs.map fun p => (p.1.meaning M old h ρ, p.2.meaning M old h ρ)) := by
  show M.mapDisplay ((meaningEntries M old kvs).map fun p => (p.1 h ρ, p.2 h ρ)) = _
  rw [meaningEntries_eq, List.map_map]
  rfl

@[simp] theorem meaning_ctor {d : Path} {k : String} {es : List Expr} :
    (ctor i d k es).meaning M old h ρ = M.ctor d k (es.map fun e => e.meaning M old h ρ) := by
  show M.ctor d k ((meaningList M old es).map (· h ρ)) = _
  rw [meaningList_eq, List.map_map]
  rfl

@[simp] theorem meaning_destruct {e : Expr} {d : Path} {k f : String} :
    (destruct i e d k f).meaning M old h ρ = M.destruct (e.meaning M old h ρ) d k f := rfl

@[simp] theorem meaning_isCtor {e : Expr} {d : Path} {k : String} :
    (isCtor i e d k).meaning M old h ρ = M.isCtor (e.meaning M old h ρ) d k := rfl

@[simp] theorem meaning_old {e : Expr} :
    (Expr.old i e).meaning M old h ρ = e.meaning M old old ρ := rfl

@[simp] theorem meaning_fresh {e : Expr} :
    (fresh i e).meaning M old h ρ = M.fresh old h (e.meaning M old h ρ) := rfl

@[simp] theorem meaning_unary {op : UnOp} {e : Expr} :
    (unary i op e).meaning M old h ρ = M.unary op (e.meaning M old h ρ) := rfl

@[simp] theorem meaning_binary {op : BinOp} {a b : Expr} : (binary i op a b).meaning M old h ρ =
    M.binary op (a.meaning M old h ρ) (b.meaning M old h ρ) := rfl

@[simp] theorem meaning_quant {q : Quantifier} {bs : List Binder} {r : Option Expr} {b : Expr}
    {ts : List (List Expr)} {ind : Induction} : (quant i q bs r b ts ind).meaning M old h ρ =
      M.quant h q (bs.map (·.2))
        (r.map fun d a => d.meaning M old h (ρ.bind (bs.map (·.1)) a))
        (fun a => b.meaning M old h (ρ.bind (bs.map (·.1)) a)) := by
  cases r <;> rfl

theorem meaning_setComp {bs : List Binder} {r : Expr} {t : Option Expr} :
    (setComp i bs r t).meaning M old h ρ =
      M.setComp h (bs.map (·.2)) (fun a => r.meaning M old h (ρ.bind (bs.map (·.1)) a))
        (fun a => match t with
          | some d => d.meaning M old h (ρ.bind (bs.map (·.1)) a)
          | none => a 0) := by
  cases t <;> rfl

@[simp] theorem meaning_mapComp {b : Binder} {r t : Expr} :
    (mapComp i b r t).meaning M old h ρ =
      M.mapComp h b.2 (fun a => r.meaning M old h (ρ.bind [b.1] fun _ => a))
        (fun a => t.meaning M old h (ρ.bind [b.1] fun _ => a)) := rfl

@[simp] theorem meaning_letIn {bs : List (String × Expr)} {b : Expr} :
    (letIn i bs b).meaning M old h ρ = b.meaning M old h
      (ρ.bind (bs.map (·.1)) fun n => (bs.map (·.2.meaning M old h ρ)).getD n M.null) := by
  show b.meaning M old h
    (ρ.bind (bs.map (·.1)) fun n => ((meaningBindings M old bs).map (· h ρ)).getD n M.null) = _
  rw [meaningBindings_eq, List.map_map]
  rfl

@[simp] theorem meaning_ite {c a b : Expr} : (ite i c a b).meaning M old h ρ =
    M.ite (c.meaning M old h ρ) (a.meaning M old h ρ) (b.meaning M old h ρ) := rfl

@[simp] theorem meaning_cases {e : Expr} {arms : List (Pattern × Expr)} :
    (cases i e arms).meaning M old h ρ = M.cases (e.meaning M old h ρ) (arms.map fun p =>
      (p.1.ctor, fun a => p.2.meaning M old h (ρ.bind (p.1.binders.map (·.1)) a))) := by
  show M.cases (e.meaning M old h ρ) ((meaningArms M old arms).map _) = _
  rw [meaningArms_eq, List.map_map]
  rfl

@[simp] theorem meaning_call {f : Path} {r : Option Expr} {es : List Expr} :
    (call i f r es).meaning M old h ρ = M.call h f (r.map fun e => e.meaning M old h ρ)
      (es.map fun e => e.meaning M old h ρ) := by
  show M.call h f ((meaning? M old r).map (· h ρ)) ((meaningList M old es).map (· h ρ)) = _
  rw [meaning?_eq, meaningList_eq, List.map_map, Option.map_map]
  rfl

end Expr

/-! ## Parts of an expression -/

namespace Expr

/-- The expressions just below an expression, terms of triggers included, with the names that are
bound there. -/
def parts : Expr → List (List String × Expr)
  | .bool .. | .int .. | .null _ | .var .. | .this _ => []
  | .field _ e _ | .arrayLength _ e | .destruct _ e _ _ _ | .isCtor _ e _ _ | .old _ e
  | .fresh _ e | .unary _ _ e => [([], e)]
  | .index _ a b | .binary _ _ a b => [([], a), ([], b)]
  | .slice _ e lo hi => (e :: (lo.toList ++ hi.toList)).map ([], ·)
  | .update _ a b c | .ite _ a b c => [([], a), ([], b), ([], c)]
  | .display _ _ es | .ctor _ _ _ es => es.map ([], ·)
  | .mapDisplay _ kvs => kvs.map (([], ·.1)) ++ kvs.map (([], ·.2))
  | .quant _ _ bs r b ts _ => (b :: (r.toList ++ ts.flatten)).map (bs.map (·.1), ·)
  | .setComp _ bs r t => (r :: t.toList).map (bs.map (·.1), ·)
  | .mapComp _ b r t => [([b.1], r), ([b.1], t)]
  | .letIn _ bs b => (bs.map (·.1), b) :: bs.map (([], ·.2))
  | .cases _ e arms => ([], e) :: arms.map fun p => (p.1.binders.map (·.1), p.2)
  | .call _ _ r es => (r.toList ++ es).map ([], ·)

/-- Induction with a hypothesis for every part. -/
@[elab_as_elim]
theorem recParts {P : Expr → Prop} (h : ∀ e, (∀ p ∈ e.parts, P p.2) → P e) (e : Expr) : P e := by
  induction e using Expr.recData with
  | bool | int | null | var | this => exact h _ (by simp [parts])
  | field _ _ _ ih | arrayLength _ _ ih | destruct _ _ _ _ _ ih | isCtor _ _ _ _ ih | old _ _ ih
  | fresh _ _ ih | unary _ _ _ ih => exact h _ (by simpa [parts] using ih)
  | index _ _ _ iha ihb | binary _ _ _ _ iha ihb => exact h _ (by simp [parts, iha, ihb])
  | slice i e lo hi ih ihlo ihhi =>
    exact h _ (by simpa [parts, or_imp, forall_and] using ⟨ih, ihlo, ihhi⟩)
  | update _ _ _ _ iha ihb ihc | ite _ _ _ _ iha ihb ihc =>
    exact h _ (by simp [parts, iha, ihb, ihc])
  | display _ _ _ ih | ctor _ _ _ _ ih => exact h _ (by simpa [parts] using ih)
  | mapDisplay i kvs ih =>
    refine h _ fun p hp => ?_
    simp only [parts, List.mem_append, List.mem_map] at hp
    rcases hp with ⟨kv, hkv, rfl⟩ | ⟨kv, hkv, rfl⟩
    · exact (ih kv hkv).1
    · exact (ih kv hkv).2
  | quant i q bs r b ts ind ihr ihb iht =>
    refine h _ fun p hp => ?_
    simp only [parts, List.map_cons, List.mem_cons, List.mem_map, List.mem_append,
      Option.mem_toList, List.mem_flatten] at hp
    rcases hp with rfl | ⟨a, ha | ⟨t, ht, ha⟩, rfl⟩
    · exact ihb
    · exact ihr a ha
    · exact iht t ht a ha
  | setComp i bs r t ihr iht => exact h _ (by simpa [parts] using ⟨ihr, iht⟩)
  | mapComp i b r t ihr iht => exact h _ (by simp [parts, ihr, iht])
  | letIn i bs b ihbs ihb =>
    refine h _ ?_
    simp only [parts, List.forall_mem_cons, List.forall_mem_map]
    exact ⟨ihb, ihbs⟩
  | cases i e arms ihe iharms =>
    refine h _ ?_
    simp only [parts, List.forall_mem_cons, List.forall_mem_map]
    exact ⟨ihe, iharms⟩
  | call i f r es ihr ihes => exact h _ (by simpa [parts, or_imp, forall_and] using ⟨ihr, ihes⟩)

variable {e : Expr} {x : String}

/-- A variable occurs free where it stands, and where it occurs free in a part that does not bind
it. -/
theorem mem_freeVars : x ∈ e.freeVars ↔
    (∃ i, e = .var i x) ∨ ∃ p ∈ e.parts, x ∈ p.2.freeVars ∧ x ∉ p.1 := by
  cases e with
  | var i y => simp [freeVars, parts, eq_comm]
  | mapDisplay i kvs =>
    simp [freeVars, parts, mem_freeVarsEntries, or_and_right, and_or_left, exists_or, -Prod.exists]
  | quant i q bs r b ts ind =>
    simp only [freeVars, parts, mem_without, List.mem_append, mem_freeVars?, mem_freeVarsTriggers,
      List.mem_map, exists_exists_and_eq_and, List.mem_cons, Option.mem_toList, List.mem_flatten,
      Option.mem_def]
    grind
  | setComp i bs r t =>
    simp only [freeVars, parts, mem_without, List.mem_append, mem_freeVars?, List.mem_map,
      exists_exists_and_eq_and, List.mem_cons, Option.mem_toList, Option.mem_def]
    grind
  | _ => simp [freeVars, parts, mem_freeVars?, mem_freeVarsList, mem_freeVarsBindings,
      mem_freeVarsArms, mem_without, or_and_right, exists_or, or_comm, -Prod.exists]

variable {d : Expr}

theorem mem_subexprs? {o : Option Expr} : d ∈ subexprs? o ↔ ∃ a ∈ o, d ∈ a.subexprs := by
  cases o <;> simp [subexprs?]

theorem mem_subexprsList {es : List Expr} : d ∈ subexprsList es ↔ ∃ a ∈ es, d ∈ a.subexprs := by
  induction es with
  | nil => simp [subexprsList]
  | cons e es ih => simp [subexprsList, ih]

theorem mem_subexprsEntries {kvs : List (Expr × Expr)} :
    d ∈ subexprsEntries kvs ↔ ∃ p ∈ kvs, d ∈ p.1.subexprs ∨ d ∈ p.2.subexprs := by
  induction kvs with
  | nil => simp [subexprsEntries]
  | cons p kvs ih => simp [subexprsEntries, ih, or_assoc]

theorem mem_subexprsBindings {bs : List (String × Expr)} :
    d ∈ subexprsBindings bs ↔ ∃ p ∈ bs, d ∈ p.2.subexprs := by
  induction bs with
  | nil => simp [subexprsBindings]
  | cons p bs ih => simp [subexprsBindings, ih]

theorem mem_subexprsArms {arms : List (Pattern × Expr)} :
    d ∈ subexprsArms arms ↔ ∃ p ∈ arms, d ∈ p.2.subexprs := by
  induction arms with
  | nil => simp [subexprsArms]
  | cons p arms ih => simp [subexprsArms, ih]

theorem mem_subexprsTriggers {ts : List (List Expr)} :
    d ∈ subexprsTriggers ts ↔ ∃ t ∈ ts, ∃ a ∈ t, d ∈ a.subexprs := by
  induction ts with
  | nil => simp [subexprsTriggers]
  | cons t ts ih => simp [subexprsTriggers, ih, mem_subexprsList]

/-- What is below an expression is the expression and what is below its parts. -/
theorem mem_subexprs : d ∈ e.subexprs ↔ d = e ∨ ∃ p ∈ e.parts, d ∈ p.2.subexprs := by
  cases e with
  | mapDisplay i kvs =>
    simp [subexprs, parts, mem_subexprsEntries, or_and_right, and_or_left, exists_or, -Prod.exists]
  | quant i q bs r b ts ind =>
    simp only [subexprs, parts, List.mem_append, mem_subexprs?, mem_subexprsTriggers,
      List.mem_map, exists_exists_and_eq_and, List.mem_cons, Option.mem_toList, List.mem_flatten,
      Option.mem_def]
    grind
  | _ => simp [subexprs, parts, mem_subexprs?, mem_subexprsList, mem_subexprsBindings,
      mem_subexprsArms, or_and_right, exists_or, or_comm, -Prod.exists]

theorem mentionsThis_iff_mem : e.mentionsThis = true ↔ ∃ i, this i ∈ e.subexprs := by
  rw [mentionsThis, List.any_eq_true]
  constructor
  · rintro ⟨d, hd, h⟩
    cases d <;> simp at h
    exact ⟨_, hd⟩
  · rintro ⟨i, hi⟩
    exact ⟨_, hi, rfl⟩

/-- The receiver is mentioned where it stands, and where it is mentioned in a part. -/
theorem mentionsThis_iff : e.mentionsThis = true ↔
    (∃ i, e = .this i) ∨ ∃ p ∈ e.parts, p.2.mentionsThis = true := by
  simp only [mentionsThis_iff_mem, mem_subexprs (e := e)]
  grind

end Expr

/-! ## What a value depends on -/

section

variable {M : Meaning} {old : M.State} {ρ ρ' : M.Env} {e : Expr}

theorem lastIndex_eq_none {names : List String} {x : String} :
    lastIndex names x = none ↔ x ∉ names := by
  induction names with
  | nil => simp [lastIndex]
  | cons y ys ih =>
    rw [lastIndex, List.mem_cons, not_or, ← ih]
    cases lastIndex ys x with
    | none => simp [eq_comm]
    | some n => simp

namespace Meaning.Env

theorem bind_nil (a : Nat → M.Val) : ρ.bind [] a = ρ := rfl

theorem bind_this (names : List String) (a : Nat → M.Val) : (ρ.bind names a).this = ρ.this := rfl

theorem bind_of_notMem {names : List String} {x : String} (hx : x ∉ names) (a : Nat → M.Val) :
    (ρ.bind names a).var x = ρ.var x := by
  simp only [bind, lastIndex_eq_none.2 hx]

theorem bind_of_lastIndex {names : List String} {x : String} {n : Nat}
    (hx : lastIndex names x = some n) (a : Nat → M.Val) :
    (ρ.bind names a).var x = fun _ => a n := by
  simp only [bind, hx]

/-- Two environments answer alike for all that an expression leaves open. -/
structure AgreeOn (ρ ρ' : M.Env) (e : Expr) : Prop where
  var : ∀ x ∈ e.freeVars, ρ.var x = ρ'.var x
  this : e.mentionsThis = true → ρ.this = ρ'.this

/-- Environments that agree on an expression agree on a part, whatever is bound there. -/
theorem AgreeOn.part (h : ρ.AgreeOn ρ' e) {p : List String × Expr} (hp : p ∈ e.parts)
    (a : Nat → M.Val) : (ρ.bind p.1 a).AgreeOn (ρ'.bind p.1 a) p.2 where
  var := by
    intro x hx
    by_cases hbound : x ∈ p.1
    · obtain ⟨n, hn⟩ := Option.ne_none_iff_exists'.1 (mt lastIndex_eq_none.1 (not_not.2 hbound))
      rw [bind_of_lastIndex hn, bind_of_lastIndex hn]
    · rw [bind_of_notMem hbound, bind_of_notMem hbound]
      exact h.var x (Expr.mem_freeVars.2 (.inr ⟨p, hp, hx, hbound⟩))
  this hthis := h.this (Expr.mentionsThis_iff.2 (.inr ⟨p, hp, hthis⟩))

end Meaning.Env

namespace Expr

/-- The value of an expression is made of the values of its parts. -/
theorem meaning_eq_of_parts (hvar : ∀ i x, e = .var i x → ρ.var x = ρ'.var x)
    (hthis : ∀ i, e = .this i → ρ.this = ρ'.this)
    (hparts : ∀ p ∈ e.parts, ∀ s a, p.2.meaning M old s (ρ.bind p.1 a) =
      p.2.meaning M old s (ρ'.bind p.1 a)) (s : M.State) :
    e.meaning M old s ρ = e.meaning M old s ρ' := by
  have plain {d : Expr} (hd : ([], d) ∈ e.parts) (s : M.State) :
      d.meaning M old s ρ = d.meaning M old s ρ' := hparts _ hd s fun _ => M.null
  cases e with
  | bool | int | null => rfl
  | var i x => rw [meaning_var, meaning_var, hvar i x rfl]
  | this i => rw [meaning_this, meaning_this, hthis i rfl]
  | field i e f => rw [meaning_field, meaning_field, plain (by simp [parts])]
  | index i a b =>
    rw [meaning_index, meaning_index, plain (by simp [parts]), plain (by simp [parts])]
  | slice i e lo hi =>
    have hlo : lo.map (fun a => a.meaning M old s ρ) = lo.map fun a => a.meaning M old s ρ' :=
      Option.map_congr fun a ha => plain (by simp [parts, ha]) s
    have hhi : hi.map (fun a => a.meaning M old s ρ) = hi.map fun a => a.meaning M old s ρ' :=
      Option.map_congr fun a ha => plain (by simp [parts, ha]) s
    rw [meaning_slice, meaning_slice, plain (by simp [parts]), hlo, hhi]
  | update i a b c =>
    rw [meaning_update, meaning_update, plain (by simp [parts]), plain (by simp [parts]),
      plain (by simp [parts])]
  | arrayLength i e => rw [meaning_arrayLength, meaning_arrayLength, plain (by simp [parts])]
  | display i k es =>
    rw [meaning_display, meaning_display,
      List.map_congr_left fun d hd => plain (by simp [parts, hd]) s]
  | mapDisplay i kvs =>
    rw [meaning_mapDisplay, meaning_mapDisplay, List.map_congr_left fun p hp => ?_]
    rw [plain (d := p.1) (by simpa [parts] using .inl ⟨p.2, hp⟩),
      plain (d := p.2) (by simpa [parts] using .inr ⟨p.1, hp⟩)]
  | ctor i d k es =>
    rw [meaning_ctor, meaning_ctor, List.map_congr_left fun d hd => plain (by simp [parts, hd]) s]
  | destruct i e d k f => rw [meaning_destruct, meaning_destruct, plain (by simp [parts])]
  | isCtor i e d k => rw [meaning_isCtor, meaning_isCtor, plain (by simp [parts])]
  | old i e => rw [meaning_old, meaning_old, plain (by simp [parts])]
  | fresh i e => rw [meaning_fresh, meaning_fresh, plain (by simp [parts])]
  | unary i op e => rw [meaning_unary, meaning_unary, plain (by simp [parts])]
  | binary i op a b =>
    rw [meaning_binary, meaning_binary, plain (by simp [parts]), plain (by simp [parts])]
  | quant i q bs r b ts ind =>
    have hrange : (r.map fun d a => d.meaning M old s (ρ.bind (bs.map (·.1)) a)) =
        r.map fun d a => d.meaning M old s (ρ'.bind (bs.map (·.1)) a) :=
      Option.map_congr fun d hd => funext fun a =>
        hparts (bs.map (·.1), d) (List.mem_map_of_mem (by simp [hd])) s a
    rw [meaning_quant, meaning_quant, hrange,
      funext fun a => hparts (bs.map (·.1), b) (List.mem_map_of_mem (by simp)) s a]
  | setComp i bs r t =>
    rw [meaning_setComp, meaning_setComp,
      funext fun a => hparts (bs.map (·.1), r) (List.mem_map_of_mem (by simp)) s a]
    cases t with
    | none => rfl
    | some d =>
      exact congrArg _ (funext fun a =>
        hparts (bs.map (·.1), d) (List.mem_map_of_mem (by simp)) s a)
  | mapComp i b r t =>
    rw [meaning_mapComp, meaning_mapComp, funext fun a => hparts ([b.1], r) (by simp [parts]) s _,
      funext fun a => hparts ([b.1], t) (by simp [parts]) s _]
  | letIn i bs b =>
    have hvalues : bs.map (fun p => p.2.meaning M old s ρ) =
        bs.map fun p => p.2.meaning M old s ρ' :=
      List.map_congr_left fun p hp =>
        plain (List.mem_cons_of_mem _ (List.mem_map_of_mem (f := fun p => ([], p.2)) hp)) s
    rw [meaning_letIn, meaning_letIn, hvalues, hparts (bs.map (·.1), b) (by simp [parts])]
  | ite i c a b =>
    rw [meaning_ite, meaning_ite, plain (by simp [parts]), plain (by simp [parts]),
      plain (by simp [parts])]
  | cases i e arms =>
    rw [meaning_cases, meaning_cases, plain (by simp [parts]), List.map_congr_left fun p hp => ?_]
    rw [funext fun a => hparts (p.1.binders.map (·.1), p.2)
      (List.mem_cons_of_mem _ (List.mem_map_of_mem (f := fun p =>
        (p.1.binders.map (·.1), p.2)) hp)) s a]
  | call i f r es =>
    have hreceiver : r.map (fun a => a.meaning M old s ρ) = r.map fun a => a.meaning M old s ρ' :=
      Option.map_congr fun a ha => plain (by simp [parts, ha]) s
    rw [meaning_call, meaning_call, hreceiver,
      List.map_congr_left fun d hd => plain (by simp [parts, hd]) s]

/-- Environments that agree on an expression give it the same value in every state. -/
theorem meaning_congr (h : ρ.AgreeOn ρ' e) (s : M.State) :
    e.meaning M old s ρ = e.meaning M old s ρ' := by
  induction e using recParts generalizing ρ ρ' s with
  | h e ih =>
    refine meaning_eq_of_parts ?_ ?_ (fun p hp s a => ih p hp (h.part hp a) s) s
    · rintro i x rfl
      exact h.var x (by simp [freeVars])
    · rintro i rfl
      exact h.this (mentionsThis_iff.2 (.inl ⟨i, rfl⟩))

end Expr

end

end ContractLowering.Source
