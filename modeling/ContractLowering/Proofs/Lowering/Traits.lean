import ContractLowering.Lowering.Split
import ContractLowering.Proofs.Lowering.Definedness
import ContractLowering.Proofs.Source.Plain

/-!
# What all lowerings of expressions have in common

A `Trait` is a property of computations that the lookups have of which lowerings are made, and that
sequences keep. A computation that reads its environment has it if what it reads is the position in
the program; one that looks a function up, if it does not ask which of its clauses are inherited;
and fields are looked up together with their handles.

Every lowering of expressions, their definedness and the induction on them have all traits. A
property of computations is established for all of them by showing that it is a trait.
-/

namespace ContractLowering

open IL Source

namespace ExprM

/-- A property of computations that lookups have and sequences keep. -/
structure Trait where
  Has {α : Type} : ExprM α → Prop
  pure {α : Type} (a : α) : Has (Pure.pure a : ExprM α)
  ofExcept {α : Type} (r : Except Broken α) : Has (ExprM.ofExcept r)
  bind {α β : Type} {x : ExprM α} {f : α → ExprM β} (hx : Has x) (hf : ∀ a, Has (f a)) :
    Has (x >>= f)
  options : Has ExprM.options
  datatype (p : Path) : Has (ExprM.datatype p)
  field (p : FieldId) : Has (ExprM.field p)
  isRecursive (p : Path) : Has (ExprM.isRecursive p)
  inSameComponent (p q : Path) : Has (ExprM.inSameComponent p q)
  isSameModule (p : Path) : Has (ExprM.isSameModule p)
  classConst (p : Path) : Has (Heap.classConst p)
  arrayLength (a : IL.Expr) : Has (Heap.arrayLength a)
  function {β : Type} (p : Path) {k : Function → ExprM β} (h : ∀ f, Has (k f))
    (hk : ∀ f, k f.plain = k f) : Has (ExprM.function p >>= k)
  fieldHandle {β : Type} (p : FieldId) {k : Field → FieldHandle → ExprM β} (h : ∀ f g, Has (k f g)) :
    Has (ExprM.field p >>= fun f => Heap.fieldHandle f >>= k f)
  env {β : Type} {k : Env → ExprM β} (h : ∀ env, Has (k env))
    (hk : ∀ {env env' : Env}, env'.member = env.member →
      env'.context.calls = env.context.calls → k env' = k env) : Has (ExprM.env >>= k)

namespace Trait

variable {T : Trait} {α β : Type}

namespace Has

theorem pure (a : α) : T.Has (Pure.pure a : ExprM α) := T.pure a

theorem ofExcept (r : Except Broken α) : T.Has (ExprM.ofExcept r) := T.ofExcept r

theorem broken (b : Broken) : T.Has (ExprM.broken b : ExprM α) := T.ofExcept _

theorem bind {x : ExprM α} {f : α → ExprM β} (hx : T.Has x) (hf : ∀ a, T.Has (f a)) :
    T.Has (x >>= f) :=
  T.bind hx hf

theorem mapM {f : α → ExprM β} {l : List α} (h : ∀ a ∈ l, T.Has (f a)) : T.Has (l.mapM f) := by
  induction l with
  | nil => exact pure []
  | cons a l ih =>
    rw [List.mapM_cons]
    exact (h a (by simp)).bind fun _ => (ih fun b hb => h b (by simp [hb])).bind fun _ => pure _

theorem datatype (p : Path) : T.Has (ExprM.datatype p) := T.datatype p

theorem field (p : FieldId) : T.Has (ExprM.field p) := T.field p

theorem isRecursive (p : Path) : T.Has (ExprM.isRecursive p) := T.isRecursive p

theorem inSameComponent (p q : Path) : T.Has (ExprM.inSameComponent p q) := T.inSameComponent p q

theorem isSameModule (p : Path) : T.Has (ExprM.isSameModule p) := T.isSameModule p

theorem classConst (p : Path) : T.Has (Heap.classConst p) := T.classConst p

theorem arrayLength (a : IL.Expr) : T.Has (Heap.arrayLength a) := T.arrayLength a

theorem dtypeIs (o : IL.Expr) (p : Path) : T.Has (Heap.dtypeIs o p) :=
  (T.classConst p).bind fun _ => pure _

end Has

end Trait

end ExprM

open ExprM ExprM.Trait

variable {T : ExprM.Trait}

/-! ## Where clauses and operators -/

theorem WhereClause.clause_has (extended : Bool) (heap : IL.Expr) :
    ∀ (depth : Nat) (t : Typ) (v : IL.Expr), T.Has (clause extended heap depth t v)
  | _, .bool, _ | _, .int, _ | _, .param _, _ | _, .nat, _ | _, .object, _ => .pure _
  | _, .cls _ _, _ | _, .array _, _ => (Has.dtypeIs _ _).bind fun _ => .pure _
  | _, .datatype _ _, _ => ((Has.datatype _).bind fun _ => .pure _).bind fun _ => .pure _
  | depth, .set elem, _ => (clause_has extended heap (depth + 1) elem _).bind fun _ => .pure _
  | depth, .multiset elem, _ =>
    (clause_has extended heap (depth + 1) elem _).bind fun _ => .pure _
  | depth, .seq elem, _ => (clause_has extended heap (depth + 1) elem _).bind fun _ => .pure _
  | depth, .map key value, _ =>
    (clause_has extended heap (depth + 1) key _).bind fun _ =>
      (clause_has extended heap (depth + 1) value _).bind fun _ => .pure _

theorem whereClause_has (t : Typ) (x heap : IL.Expr) : T.Has (whereClause t x heap) :=
  WhereClause.clause_has false heap 0 t x

theorem whereClauseExtended_has (t : Typ) (x heap : IL.Expr) :
    T.Has (whereClauseExtended t x heap) :=
  WhereClause.clause_has true heap 0 t x

theorem whereClauses_has (heap : IL.Expr) (bs : List Source.Binder) :
    T.Has (whereClauses heap bs) :=
  (Has.mapM fun _ _ => whereClause_has _ _ _).bind fun _ => .pure _

theorem bindersWhere_has (heap : IL.Expr) (bs : List Source.Binder) :
    T.Has (bindersWhere heap bs) :=
  (whereClauses_has heap bs).bind fun _ => .pure _

theorem elemTyp_has (t : Typ) : T.Has (elemTyp t) := by
  cases t <;> first | exact .pure _ | exact .broken _

theorem mapTyps_has (t : Typ) (b : Broken) : T.Has (mapTyps t b) := by
  cases t <;> first | exact .pure _ | exact .broken _

theorem matchedDatatype_has (t : Typ) : T.Has (matchedDatatype t) := by
  cases t <;> first | exact .pure _ | exact .broken _

theorem lowerIndex_has (v : View) (coll idx result : Typ) (c i : IL.Expr) :
    T.Has (lowerIndex v coll idx result c i) := by
  cases coll <;> first | exact .pure _ | exact .broken _

theorem lowerUpdate_has (coll value : Typ) (c i v : IL.Expr) :
    T.Has (lowerUpdate coll value c i v) := by
  cases coll <;> first | exact .pure _ | exact .broken _

theorem lowerCard_has (t : Typ) : T.Has (lowerCard t) := by
  cases t <;> first | exact .pure _ | exact .broken _

theorem lowerMem_has (t : Typ) (c e : IL.Expr) : T.Has (lowerMem t c e) := by
  cases t <;> first | exact .pure _ | exact .broken _

theorem collectionBelow_has (proper : Bool) (t : Typ) (a b : IL.Expr) :
    T.Has (collectionBelow proper t a b) := by
  cases t <;> first | exact .pure _ | exact .broken _

theorem lowerCompare_has (op : IL.BinOp) (proper swapped : Bool) (t : Typ) (a b : IL.Expr) :
    T.Has (lowerCompare op proper swapped t a b) := by
  unfold lowerCompare
  split
  · split
    · exact collectionBelow_has _ _ _ _
    · exact collectionBelow_has _ _ _ _
  · exact .pure _

theorem lowerArith_has (op : MultiOp) (t : Typ) (a b : IL.Expr) : T.Has (lowerArith op t a b) := by
  cases t <;> cases op <;> first | exact .pure _ | exact .broken _

theorem lowerBinary_has (op : Source.BinOp) (t₁ t₂ : Typ) (a b : IL.Expr) :
    T.Has (lowerBinary op t₁ t₂ a b) := by
  cases op with
  | lt | le | gt | ge => exact lowerCompare_has _ _ _ _ _ _
  | add | sub | mul => exact lowerArith_has _ _ _ _
  | mem => exact lowerMem_has _ _ _
  | notMem => exact (lowerMem_has _ _ _).bind fun _ => .pure _
  | disjoint => cases t₁ <;> exact .pure _
  | _ => exact .pure _

theorem autoTriggers_has (bound : List String) (body : IL.Expr) :
    T.Has (autoTriggers bound body) :=
  T.options.bind fun _ => .pure _

theorem allAuto_has (bs : List IL.Binder) (body : IL.Expr) : T.Has (allAuto bs body) :=
  (autoTriggers_has _ _).bind fun _ => .pure _

theorem exAuto_has (bs : List IL.Binder) (body : IL.Expr) : T.Has (exAuto bs body) :=
  (autoTriggers_has _ _).bind fun _ => .pure _

theorem callLayer_has (v : View) (f : Path) : T.Has (callLayer v f) := by
  refine (Has.isRecursive f).bind fun recursive => ?_
  split
  · exact .pure _
  · refine T.env (fun env => ?_) fun hmember _ => by rw [hmember]
    cases env.member with
    | none => cases v.layer <;> exact (Has.pure _).bind fun _ => .pure _
    | some g => cases v.layer <;> exact (Has.inSameComponent _ _).bind fun _ => .pure _

theorem caseBindings_has (d : Datatype) (dt : Path) (p : Pattern) (s : IL.Expr) :
    T.Has (caseBindings d dt p s) :=
  (Has.ofExcept _).bind fun _ => .pure _

/-! ## Expressions -/

section

/-- The lowerings of an expression have a trait. -/
def ExprM.Trait.Lowers (T : Trait) (e : Source.Expr) : Prop := ∀ v : View, T.Has (lowerExpr v e)

theorem lowerExpr?_has_of (v : View) {o : Option Source.Expr} (h : ∀ e ∈ o, T.Lowers e) :
    T.Has (lowerExpr? v o) := by
  cases o with
  | none => exact .pure _
  | some e => exact (h e rfl v).bind fun _ => .pure _

theorem lowerReceiver_has_of (v : View) {o : Option Source.Expr}
    (h : ∀ e ∈ o, T.Lowers e) : T.Has (lowerReceiver v o) := by
  cases o with
  | none => exact .pure _
  | some e => exact (h e rfl v).bind fun _ => .pure _

theorem lowerArgs_has_of (v : View) {es : List Source.Expr} (h : ∀ e ∈ es, T.Lowers e)
    (ps : List Source.Binder) : T.Has (lowerArgs v ps es) := by
  induction es generalizing ps with
  | nil => exact .pure _
  | cons e es ih =>
    cases ps with
    | nil => exact .pure _
    | cons p ps =>
      exact (h e (by simp) v).bind fun _ =>
        (ih (fun x hx => h x (by simp [hx])) ps).bind fun _ => .pure _

theorem lowerElements_has_of (v : View) {es : List Source.Expr} (h : ∀ e ∈ es, T.Lowers e)
    (elem : Typ) (add : IL.Expr → IL.Expr → IL.Expr) (acc : IL.Expr) :
    T.Has (lowerElements v elem add acc es) := by
  induction es generalizing acc with
  | nil => exact .pure _
  | cons e es ih =>
    exact (h e (by simp) v).bind fun _ => ih (fun x hx => h x (by simp [hx])) _

theorem lowerEntries_has_of (v : View) {kvs : List (Source.Expr × Source.Expr)}
    (h : ∀ p ∈ kvs, T.Lowers p.1 ∧ T.Lowers p.2) (key value : Typ) (acc : IL.Expr) :
    T.Has (lowerEntries v key value acc kvs) := by
  induction kvs generalizing acc with
  | nil => exact .pure _
  | cons p kvs ih =>
    obtain ⟨hk, hv⟩ := h p (by simp)
    exact (hk v).bind fun _ => (hv v).bind fun _ => ih (fun x hx => h x (by simp [hx])) _

theorem lowerBindings_has_of (v : View) {bs : List (String × Source.Expr)}
    (h : ∀ p ∈ bs, T.Lowers p.2) : T.Has (lowerBindings v bs) := by
  induction bs with
  | nil => exact .pure _
  | cons p bs ih =>
    exact (h p (by simp) v).bind fun _ =>
      (ih fun x hx => h x (by simp [hx])).bind fun _ => .pure _

theorem lowerArms_has_of (v : View) (d : Datatype) (dt : Path) (s : IL.Expr) (result : Typ)
    {arms : List (Pattern × Source.Expr)} (h : ∀ p ∈ arms, T.Lowers p.2) :
    T.Has (lowerArms v d dt s result arms) := by
  induction arms with
  | nil => exact .pure _
  | cons p arms ih =>
    refine (ih fun x hx => h x (by simp [hx])).bind fun otherwise => ?_
    refine (caseBindings_has _ _ _ _).bind fun _ => (h p (by simp) v).bind fun _ => ?_
    cases otherwise <;> exact .pure _

theorem lowerTerms_has_of (v : View) {es : List Source.Expr} (h : ∀ e ∈ es, T.Lowers e) :
    T.Has (lowerTerms v es) := by
  induction es with
  | nil => exact .pure _
  | cons e es ih =>
    exact (h e (by simp) v).bind fun _ =>
      (ih fun x hx => h x (by simp [hx])).bind fun _ => .pure _

theorem lowerTriggers_has_of (v : View) {ts : List (List Source.Expr)}
    (h : ∀ t ∈ ts, ∀ e ∈ t, T.Lowers e) : T.Has (lowerTriggers v ts) := by
  induction ts with
  | nil => exact .pure _
  | cons t ts ih =>
    exact (lowerTerms_has_of v (h t (by simp))).bind fun _ =>
      (ih fun x hx => h x (by simp [hx])).bind fun _ => .pure _

/-- Lowering an expression has all traits. -/
theorem lowerExpr_has (e : Source.Expr) : T.Lowers e := by
  induction e using Source.Expr.recData with
  | bool | int | null | var | this => exact fun v => .pure _
  | field i e f ih =>
    exact fun v => T.fieldHandle f fun _ _ => (ih v).bind fun _ => .pure _
  | index i a b iha ihb =>
    exact fun v => (iha v).bind fun _ => (ihb v).bind fun _ => lowerIndex_has _ _ _ _ _ _
  | slice i e lo hi ih ihlo ihhi =>
    exact fun v => (ih v).bind fun _ => (lowerExpr?_has_of v ihlo).bind fun _ =>
      (lowerExpr?_has_of v ihhi).bind fun _ => .pure _
  | update i a b c iha ihb ihc =>
    exact fun v => (iha v).bind fun _ => (ihb v).bind fun _ => (ihc v).bind fun _ =>
      lowerUpdate_has _ _ _ _ _
  | arrayLength i e ih => exact fun v => (ih v).bind fun _ => Has.arrayLength _
  | display i kind es ih =>
    exact fun v => (elemTyp_has _).bind fun _ => lowerElements_has_of v ih _ _ _
  | mapDisplay i kvs ih =>
    exact fun v => (mapTyps_has _ _).bind fun _ => lowerEntries_has_of v ih _ _ _
  | ctor i d c es ih =>
    exact fun v => (Has.datatype _).bind fun _ => (Has.ofExcept _).bind fun _ =>
      (lowerArgs_has_of v ih _).bind fun _ => .pure _
  | destruct i e d c f ih =>
    exact fun v => (Has.datatype _).bind fun _ => (Has.ofExcept _).bind fun _ =>
      (Has.ofExcept _).bind fun _ => (ih v).bind fun _ => .pure _
  | isCtor i e d c ih => exact fun v => (ih v).bind fun _ => .pure _
  | old i e ih => exact fun v => ih v.old
  | fresh i e ih => exact fun v => (ih v).bind fun _ => .pure _
  | unary i op e ih =>
    intro v
    cases op with
    | not | neg => exact (ih v).bind fun _ => .pure _
    | card => exact (lowerCard_has _).bind fun _ => (ih v).bind fun _ => .pure _
  | binary i op a b iha ihb =>
    exact fun v => (iha v).bind fun _ => (ihb v).bind fun _ => lowerBinary_has _ _ _ _ _
  | quant i q bs r b ts ind ihr ihb iht =>
    intro v
    refine (bindersWhere_has _ _).bind fun _ => (lowerExpr?_has_of v ihr).bind fun _ =>
      (ihb v).bind fun _ => ?_
    dsimp only
    split
    · exact (autoTriggers_has _ _).bind fun _ => .pure _
    · exact (lowerTriggers_has_of v iht).bind fun _ => .pure _
  | setComp i bs r t ihr iht =>
    intro v
    rw [lowerExpr]
    refine (bindersWhere_has _ _).bind fun _ => (ihr v).bind fun _ => ?_
    split
    · exact (Has.pure _).bind fun _ => .pure _
    · cases t with
      | none => exact (Has.broken _).bind fun _ => .pure _
      | some t =>
        exact (elemTyp_has _).bind fun _ => (iht t rfl v).bind fun _ =>
          (exAuto_has _ _).bind fun _ => .pure _
  | mapComp i b r t ihr iht =>
    exact fun v => (mapTyps_has _ _).bind fun _ => (bindersWhere_has _ _).bind fun _ =>
      (ihr v).bind fun _ => (iht v).bind fun _ => .pure _
  | letIn i bs b ihbs ihb =>
    exact fun v => (lowerBindings_has_of v ihbs).bind fun _ => (ihb v).bind fun _ => .pure _
  | ite i c a b ihc iha ihb =>
    exact fun v => (iha v).bind fun _ => (ihb v).bind fun _ => (ihc v).bind fun _ => .pure _
  | cases i e arms ihe iharms =>
    intro v
    refine (ihe v).bind fun _ => (matchedDatatype_has _).bind fun _ =>
      (Has.datatype _).bind fun _ => (lowerArms_has_of v _ _ _ _ iharms).bind fun cascade => ?_
    cases cascade with
    | none => exact .broken _
    | some c => exact .pure _
  | call i f r es ihr ihes =>
    intro v
    refine T.function f (fun callee => ?_) fun _ => rfl
    refine (callLayer_has _ _).bind fun _ => ?_
    dsimp only
    split
    · exact (Has.pure _).bind fun _ => (lowerArgs_has_of v ihes _).bind fun _ => .pure _
    · exact (lowerReceiver_has_of v ihr).bind fun _ =>
        (lowerArgs_has_of v ihes _).bind fun _ => .pure _

end

variable (v : View)

theorem lowerExpr?_has (o : Option Source.Expr) : T.Has (lowerExpr? v o) :=
  lowerExpr?_has_of v fun e _ => lowerExpr_has e

theorem lowerReceiver_has (o : Option Source.Expr) : T.Has (lowerReceiver v o) :=
  lowerReceiver_has_of v fun e _ => lowerExpr_has e

theorem lowerArgs_has (ps : List Source.Binder) (es : List Source.Expr) :
    T.Has (lowerArgs v ps es) :=
  lowerArgs_has_of v (fun e _ => lowerExpr_has e) ps

theorem lowerBindings_has (bs : List (String × Source.Expr)) : T.Has (lowerBindings v bs) :=
  lowerBindings_has_of v fun p _ => lowerExpr_has p.2

theorem lowerTerms_has (es : List Source.Expr) : T.Has (lowerTerms v es) :=
  lowerTerms_has_of v fun e _ => lowerExpr_has e

theorem lowerTriggers_has (ts : List (List Source.Expr)) : T.Has (lowerTriggers v ts) :=
  lowerTriggers_has_of v fun _ _ e _ => lowerExpr_has e

theorem lowerCallArgs_has (f : Path) (r : Option Source.Expr) (es : List Source.Expr) :
    T.Has (lowerCallArgs v f r es) := by
  refine T.function f (fun callee => ?_) fun _ => rfl
  dsimp only
  split
  · exact (Has.pure _).bind fun _ => (lowerArgs_has v _ es).bind fun _ => .pure _
  · exact (lowerReceiver_has v r).bind fun _ => (lowerArgs_has v _ es).bind fun _ => .pure _

theorem frameContains_has (frame : List Source.Expr) (o : IL.Expr) :
    T.Has (frameContains v frame o) :=
  (Has.mapM fun e _ => (lowerExpr_has e v).bind fun _ => .pure _).bind fun _ => .pure _

theorem frameSet_has (frame : List Source.Expr) (fresh : Option IL.Expr) :
    T.Has (frameSet v frame fresh) :=
  (frameContains_has v frame _).bind fun _ => .pure _

/-! ## Obligations -/

theorem Termination.values_has (m : Measure) : T.Has (Termination.values v m) := by
  refine Has.mapM fun e _ => ?_
  cases e with
  | expr e => exact (lowerExpr_has e v).bind fun _ => .pure _
  | yields x => exact .pure _

theorem Termination.callChecks_has (entry : Termination.Entry) (callee : Path) (m : Measure)
    (bindings : List (String × IL.Expr)) (span : Span) :
    T.Has (Termination.callChecks v entry callee m bindings span) := by
  refine (Has.inSameComponent _ _).bind fun _ => (Has.isRecursive _).bind fun _ => ?_
  dsimp only
  split
  · exact .pure _
  · exact (values_has v m).bind fun _ => .pure _

namespace Obligation

theorem nonNull_has (obj : Source.Expr) : T.Has (nonNull v obj) := by
  unfold nonNull
  split
  · exact .pure _
  · exact (lowerExpr_has obj v).bind fun _ => .pure _

theorem natArgs_has (args : List Source.Expr) (params : List Source.Binder) :
    T.Has (natArgs v args params) := by
  induction args generalizing params with
  | nil => exact .pure _
  | cons arg args ih =>
    cases params with
    | nil => exact .pure _
    | cons param params =>
      rw [natArgs]
      split
      · exact (lowerExpr_has arg v).bind fun _ => (Has.pure _).bind fun _ =>
          (ih params).bind fun _ => .pure _
      · exact (Has.pure _).bind fun _ => (ih params).bind fun _ => .pure _

theorem inReads_has (reads : Option (List Source.Expr)) (obj : Source.Expr) (note : String) :
    T.Has (inReads v reads obj note) := by
  cases reads with
  | none => exact .pure _
  | some frame =>
    exact (lowerExpr_has obj v).bind fun _ => (frameContains_has v frame _).bind fun _ =>
      .pure _

theorem lengthOf_has (coll : Source.Expr) : T.Has (lengthOf v coll) := by
  refine (lowerExpr_has coll v).bind fun c => ?_
  split
  · exact Has.arrayLength c
  · exact .pure _

theorem arrayRead_has (limits : Limits) (coll : Source.Expr) :
    T.Has (arrayRead v limits coll) := by
  unfold arrayRead
  split
  · exact (nonNull_has v coll).bind fun _ => (inReads_has v _ coll _).bind fun _ => .pure _
  · exact .pure _

theorem calleeBindings_has (owner : Option Path) (params : List Source.Binder)
    (receiver : Option Source.Expr) (args : List Source.Expr) :
    T.Has (calleeBindings v owner params receiver args) := by
  cases owner with
  | none => exact (Has.pure _).bind fun _ => (lowerArgs_has v _ _).bind fun _ => .pure _
  | some p =>
    exact (lowerReceiver_has v receiver).bind fun _ => (lowerArgs_has v _ _).bind fun _ =>
      .pure _

theorem preconditions_has (call : Span) (bindings : List (String × IL.Expr))
    (requires : List Spec) : T.Has (preconditions v call bindings requires) :=
  .mapM fun r _ => (lowerExpr_has r.expr v).bind fun _ => .pure _

theorem preconditions_plain (call : Span) (bindings : List (String × IL.Expr))
    (requires : List Spec) :
    preconditions v call bindings (requires.map Spec.plain) =
      preconditions v call bindings requires := by
  unfold preconditions
  rw [filter_plain (fun r => !r.free) (fun _ => rfl), List.mapM_map]
  rfl

theorem readsIncluded_has (callee : View) (call : Span) (bindings : List (String × IL.Expr))
    (calleeReads : List Source.Expr) (reads : Option (List Source.Expr)) :
    T.Has (readsIncluded v callee call bindings calleeReads reads) := by
  cases reads with
  | none => exact .pure _
  | some frame =>
    unfold readsIncluded
    dsimp only
    split
    · exact .pure _
    · exact (frameContains_has callee _ _).bind fun _ =>
        (frameContains_has v _ _).bind fun _ => .pure _

/-- What a call needs does not depend on which preconditions are inherited. -/
theorem ofCall_has (limits : Limits) (span : Span) (f : Path) (receiver : Option Source.Expr)
    (args : List Source.Expr) : T.Has (ofCall v limits span f receiver args) := by
  obtain ⟨reads, termination⟩ := limits
  refine T.function f (fun callee => ?_) fun callee => by
    simp only [Function.plain, preconditions_plain]
  cases receiver
  all_goals
    refine Has.bind ?_ fun _ => (natArgs_has v _ _).bind fun _ =>
      (calleeBindings_has v _ _ _ _).bind fun _ => (preconditions_has _ _ _ _).bind fun _ =>
      (readsIncluded_has v _ _ _ _ _).bind fun _ => ?rest
    case rest =>
      cases termination with
      | none => exact (Has.pure _).bind fun _ => .pure _
      | some entry =>
        exact (Termination.callChecks_has _ _ _ _ _ _).bind fun _ => (Has.pure _).bind fun _ =>
          .pure _
  · exact .pure _
  · exact nonNull_has v _

theorem ofIndex_has (limits : Limits) (coll idx : Source.Expr) :
    T.Has (ofIndex v limits coll idx) := by
  unfold ofIndex
  split
  · exact (arrayRead_has v limits coll).bind fun _ => (lowerExpr_has idx v).bind fun _ =>
      (lengthOf_has v coll).bind fun _ => .pure _
  · exact (arrayRead_has v limits coll).bind fun _ => (lowerExpr_has idx v).bind fun _ =>
      (lengthOf_has v coll).bind fun _ => .pure _
  · exact (lowerExpr_has idx v).bind fun _ => (lowerExpr_has coll v).bind fun _ => .pure _
  · exact .pure _

theorem ofSlice_has (limits : Limits) (coll : Source.Expr) (lo hi : Option Source.Expr) :
    T.Has (ofSlice v limits coll lo hi) := by
  refine (arrayRead_has v limits coll).bind fun _ => (lengthOf_has v coll).bind fun _ =>
    (lowerExpr?_has v lo).bind fun _ => ?_
  cases hi with
  | none => exact (Has.pure _).bind fun _ => .pure _
  | some e => exact (lowerExpr_has e v).bind fun _ => (Has.pure _).bind fun _ => .pure _

end Obligation

open Obligation in
theorem nodeObligations_has (limits : Limits) (e : Source.Expr) :
    T.Has (nodeObligations v limits e) := by
  unfold nodeObligations
  split
  · refine (nonNull_has v _).bind fun _ => ?_
    split
    · exact .pure _
    · refine (Has.field _).bind fun _ => ?_
      split
      · exact (inReads_has v _ _ _).bind fun _ => .pure _
      · exact .pure _
  · exact ofIndex_has v limits _ _
  · exact ofSlice_has v limits _ _ _
  · split
    · exact (lowerExpr_has _ v).bind fun _ => (lowerExpr_has _ v).bind fun _ => .pure _
    · exact .pure _
  · exact nonNull_has v _
  · exact (Has.datatype _).bind fun _ => (Has.ofExcept _).bind fun _ => natArgs_has v _ _
  · refine (Has.datatype _).bind fun d => ?_
    split
    · exact (lowerExpr_has _ v).bind fun _ => .pure _
    · exact .pure _
  · exact (lowerExpr_has _ v).bind fun _ => .pure _
  · exact (lowerExpr_has _ v).bind fun _ => .pure _
  · exact ofCall_has v limits _ _ _ _
  · exact .pure _

theorem canCallFact?_has (e : Source.Expr) : T.Has (canCallFact? v e) := by
  unfold canCallFact?
  split
  · exact (lowerCallArgs_has v _ _ _).bind fun _ => .pure _
  · exact .pure _

/-! ## Definedness -/

theorem Frame.ofBinders_has (bs : List Source.Binder) : T.Has (Frame.ofBinders v bs) :=
  (bindersWhere_has _ _).bind fun _ => .pure _

theorem checkNode_has (limits : Limits) (frames : List Frame) (e : Source.Expr) :
    T.Has (checkNode v limits frames e) :=
  T.options.bind fun _ => (nodeObligations_has v limits e).bind fun _ =>
    (canCallFact?_has v e).bind fun _ => .pure _

/-- The checks of an expression have a trait. -/
def ExprM.Trait.Checks (T : Trait) (e : Source.Expr) : Prop :=
  ∀ (v : View) (limits : Limits) (frames : List Frame), T.Has (check v limits frames e)

theorem check?_has_of (limits : Limits) (frames : List Frame) {o : Option Source.Expr}
    (h : ∀ e ∈ o, T.Checks e) : T.Has (check? v limits frames o) := by
  cases o with
  | none => exact .pure _
  | some e => exact h e rfl v limits frames

theorem checkList_has_of (limits : Limits) (frames : List Frame) {es : List Source.Expr}
    (h : ∀ e ∈ es, T.Checks e) : T.Has (checkList v limits frames es) := by
  induction es with
  | nil => exact .pure _
  | cons e es ih =>
    exact (h e (by simp) v limits frames).bind fun _ =>
      (ih fun x hx => h x (by simp [hx])).bind fun _ => .pure _

theorem checkEntries_has_of (limits : Limits) (frames : List Frame)
    {kvs : List (Source.Expr × Source.Expr)}
    (h : ∀ p ∈ kvs, T.Checks p.1 ∧ T.Checks p.2) :
    T.Has (checkEntries v limits frames kvs) := by
  induction kvs with
  | nil => exact .pure _
  | cons p kvs ih =>
    obtain ⟨hk, hv⟩ := h p (by simp)
    exact (hk v limits frames).bind fun _ => (hv v limits frames).bind fun _ =>
      (ih fun x hx => h x (by simp [hx])).bind fun _ => .pure _

theorem checkBindings_has_of (limits : Limits) (frames : List Frame)
    {bs : List (String × Source.Expr)} (h : ∀ p ∈ bs, T.Checks p.2) :
    T.Has (checkBindings v limits frames bs) := by
  induction bs with
  | nil => exact .pure _
  | cons p bs ih =>
    exact (h p (by simp) v limits frames).bind fun _ =>
      (ih fun x hx => h x (by simp [hx])).bind fun _ => .pure _

/-- The check of an expression has all traits. -/
theorem check_has (e : Source.Expr) : T.Checks e := by
  induction e using Source.Expr.recData with
  | bool | int | null | var | this => exact fun v limits frames => .pure _
  | field i e f ih =>
    exact fun v l fs => (ih v l fs).bind fun _ => (checkNode_has v l fs _).bind fun _ => .pure _
  | arrayLength i e ih =>
    exact fun v l fs => (ih v l fs).bind fun _ => (checkNode_has v l fs _).bind fun _ => .pure _
  | destruct i e d c f ih =>
    exact fun v l fs => (ih v l fs).bind fun _ => (checkNode_has v l fs _).bind fun _ => .pure _
  | isCtor i e d c ih => exact fun v l fs => ih v l fs
  | fresh i e ih => exact fun v l fs => ih v l fs
  | unary i op e ih => exact fun v l fs => ih v l fs
  | index i a b iha ihb =>
    exact fun v l fs => (iha v l fs).bind fun _ => (ihb v l fs).bind fun _ =>
      (checkNode_has v l fs _).bind fun _ => .pure _
  | slice i e lo hi ih ihlo ihhi =>
    exact fun v l fs => (ih v l fs).bind fun _ => (check?_has_of v l fs ihlo).bind fun _ =>
      (check?_has_of v l fs ihhi).bind fun _ => (checkNode_has v l fs _).bind fun _ => .pure _
  | update i a b c iha ihb ihc =>
    exact fun v l fs => (iha v l fs).bind fun _ => (ihb v l fs).bind fun _ =>
      (ihc v l fs).bind fun _ => (checkNode_has v l fs _).bind fun _ => .pure _
  | display i kind es ih => exact fun v l fs => checkList_has_of v l fs ih
  | mapDisplay i kvs ih => exact fun v l fs => checkEntries_has_of v l fs ih
  | ctor i d c es ih =>
    exact fun v l fs => (checkList_has_of v l fs ih).bind fun _ =>
      (checkNode_has v l fs _).bind fun _ => .pure _
  | old i e ih => exact fun v l fs => ih v.old l fs
  | binary i op a b iha ihb =>
    intro v l fs
    refine (iha v l fs).bind fun _ => ?_
    cases guardOfFirst? op with
    | some guard =>
      exact (lowerExpr_has a v).bind fun _ => (ihb v l _).bind fun _ => .pure _
    | none =>
      exact (ihb v l fs).bind fun _ => (checkNode_has v l fs _).bind fun _ => .pure _
  | quant i q bs r b ts ind ihr ihb iht =>
    intro v l fs
    cases r with
    | none => exact (Frame.ofBinders_has v bs).bind fun _ => ihb v l _
    | some r =>
      exact (Frame.ofBinders_has v bs).bind fun _ => (ihr r rfl v l _).bind fun _ =>
        (lowerExpr_has r v).bind fun _ => (ihb v l _).bind fun _ => .pure _
  | setComp i bs r t ihr iht =>
    intro v l fs
    cases t with
    | none =>
      exact (Frame.ofBinders_has v bs).bind fun _ => (ihr v l _).bind fun _ => .pure _
    | some t =>
      exact (Frame.ofBinders_has v bs).bind fun _ => (ihr v l _).bind fun _ =>
        (lowerExpr_has r v).bind fun _ => (iht t rfl v l _).bind fun _ => .pure _
  | mapComp i b r t ihr iht =>
    exact fun v l fs => (Frame.ofBinders_has v [b]).bind fun _ => (ihr v l _).bind fun _ =>
      (lowerExpr_has r v).bind fun _ => (iht v l _).bind fun _ => .pure _
  | letIn i bs b ihbs ihb =>
    exact fun v l fs => (checkBindings_has_of v l fs ihbs).bind fun _ =>
      (lowerBindings_has v bs).bind fun _ => (ihb v l _).bind fun _ => .pure _
  | ite i c a b ihc iha ihb =>
    exact fun v l fs => (ihc v l fs).bind fun _ => (lowerExpr_has c v).bind fun _ =>
      (iha v l _).bind fun _ => (ihb v l _).bind fun _ => .pure _
  | cases i e arms ihe iharms =>
    intro v l fs
    refine (ihe v l fs).bind fun _ => (matchedDatatype_has _).bind fun _ =>
      (lowerExpr_has e v).bind fun _ => (Has.datatype _).bind fun _ =>
      T.options.bind fun _ => .bind (.mapM fun k _ => ?_) fun _ => .pure _
    dsimp only
    rw [checkArms_eq, List.find?_map]
    cases hp : arms.find? ((·.1.ctor == k.name) ∘ fun p => (p.1, fun fs => check v l fs p.2)) with
    | none => exact .pure _
    | some p =>
      exact (caseBindings_has _ _ _ _).bind fun _ =>
        iharms p (List.mem_of_find?_eq_some hp) v l _
  | call i f r es ihr ihes =>
    exact fun v l fs => (check?_has_of v l fs ihr).bind fun _ =>
      (checkList_has_of v l fs ihes).bind fun _ => (checkNode_has v l fs _).bind fun _ =>
      .pure _

theorem definedness_has (limits : Limits) (e : Source.Expr) : T.Has (definedness v limits e) :=
  check_has e v limits []

theorem definednessOfAll_has (limits : Limits) (es : List Source.Expr) :
    T.Has (definednessOfAll v limits es) :=
  checkList_has_of v limits [] fun e _ => check_has e

/-! ## Definedness as formulas -/

theorem collectNode_has (kind : Collected) (e : Source.Expr) : T.Has (collectNode kind v e) := by
  cases kind with
  | obligations =>
    exact (nodeObligations_has v {} e).bind fun _ => (Has.pure _).bind fun _ => .pure _
  | facts => exact (canCallFact?_has v e).bind fun _ => (Has.pure _).bind fun _ => .pure _

/-- Collecting the formulas of an expression has a trait. -/
def ExprM.Trait.Collects (T : Trait) (kind : Collected) (e : Source.Expr) : Prop :=
  ∀ v : View, T.Has (collect kind v e)

variable {kind : Collected}

theorem collect?_has_of {o : Option Source.Expr} (h : ∀ e ∈ o, T.Collects kind e) :
    T.Has (collect? kind v o) := by
  cases o with
  | none => exact .pure _
  | some e => exact h e rfl v

theorem collectList_has_of {es : List Source.Expr} (h : ∀ e ∈ es, T.Collects kind e) :
    T.Has (collectList kind v es) := by
  induction es with
  | nil => exact .pure _
  | cons e es ih =>
    exact (h e (by simp) v).bind fun _ =>
      (ih fun x hx => h x (by simp [hx])).bind fun _ => .pure _

theorem collectEntries_has_of {kvs : List (Source.Expr × Source.Expr)}
    (h : ∀ p ∈ kvs, T.Collects kind p.1 ∧ T.Collects kind p.2) :
    T.Has (collectEntries kind v kvs) := by
  induction kvs with
  | nil => exact .pure _
  | cons p kvs ih =>
    obtain ⟨hk, hv⟩ := h p (by simp)
    exact (hk v).bind fun _ => (hv v).bind fun _ =>
      (ih fun x hx => h x (by simp [hx])).bind fun _ => .pure _

theorem collectBindings_has_of {bs : List (String × Source.Expr)}
    (h : ∀ p ∈ bs, T.Collects kind p.2) : T.Has (collectBindings kind v bs) := by
  induction bs with
  | nil => exact .pure _
  | cons p bs ih =>
    exact (h p (by simp) v).bind fun _ =>
      (ih fun x hx => h x (by simp [hx])).bind fun _ => .pure _

/-- Collecting the formulas of an expression has all traits. -/
theorem collect_has (kind : Collected) (e : Source.Expr) : T.Collects kind e := by
  induction e using Source.Expr.recData with
  | bool | int | null | var | this => exact fun v => .pure _
  | field i e f ih =>
    exact fun v => (ih v).bind fun _ => (collectNode_has v kind _).bind fun _ => .pure _
  | arrayLength i e ih =>
    exact fun v => (ih v).bind fun _ => (collectNode_has v kind _).bind fun _ => .pure _
  | destruct i e d c f ih =>
    exact fun v => (ih v).bind fun _ => (collectNode_has v kind _).bind fun _ => .pure _
  | isCtor i e d c ih => exact fun v => ih v
  | fresh i e ih => exact fun v => ih v
  | unary i op e ih => exact fun v => ih v
  | index i a b iha ihb =>
    exact fun v => (iha v).bind fun _ => (ihb v).bind fun _ =>
      (collectNode_has v kind _).bind fun _ => .pure _
  | slice i e lo hi ih ihlo ihhi =>
    exact fun v => (ih v).bind fun _ => (collect?_has_of v ihlo).bind fun _ =>
      (collect?_has_of v ihhi).bind fun _ => (collectNode_has v kind _).bind fun _ => .pure _
  | update i a b c iha ihb ihc =>
    exact fun v => (iha v).bind fun _ => (ihb v).bind fun _ => (ihc v).bind fun _ =>
      (collectNode_has v kind _).bind fun _ => .pure _
  | display i k es ih => exact fun v => collectList_has_of v ih
  | mapDisplay i kvs ih => exact fun v => collectEntries_has_of v ih
  | ctor i d c es ih =>
    exact fun v => (collectList_has_of v ih).bind fun _ =>
      (collectNode_has v kind _).bind fun _ => .pure _
  | old i e ih => exact fun v => ih v.old
  | binary i op a b iha ihb =>
    intro v
    rw [collect]
    cases guardOfFirst? op with
    | some guard =>
      exact T.options.bind fun _ => (lowerExpr_has a v).bind fun _ =>
        (iha v).bind fun _ => (ihb v).bind fun _ => .pure _
    | none =>
      exact (iha v).bind fun _ => (ihb v).bind fun _ =>
        (collectNode_has v kind _).bind fun _ => .pure _
  | quant i q bs r b ts ind ihr ihb iht =>
    intro v
    cases r with
    | none =>
      exact T.options.bind fun _ => (ihb v).bind fun _ =>
        (Frame.ofBinders_has v bs).bind fun _ => .pure _
    | some r =>
      exact T.options.bind fun _ => (ihr r rfl v).bind fun _ =>
        (lowerExpr_has r v).bind fun _ => (ihb v).bind fun _ => (Has.pure _).bind fun _ =>
        (Frame.ofBinders_has v bs).bind fun _ => .pure _
  | setComp i bs r t ihr iht =>
    intro v
    cases t with
    | none =>
      exact T.options.bind fun _ => (ihr v).bind fun _ => (Has.pure _).bind fun _ =>
        (Frame.ofBinders_has v bs).bind fun _ => .pure _
    | some t =>
      exact T.options.bind fun _ => (ihr v).bind fun _ => (lowerExpr_has r v).bind fun _ =>
        (iht t rfl v).bind fun _ => (Has.pure _).bind fun _ =>
        (Frame.ofBinders_has v bs).bind fun _ => .pure _
  | mapComp i b r t ihr iht =>
    exact fun v => T.options.bind fun _ => (ihr v).bind fun _ =>
      (lowerExpr_has r v).bind fun _ => (iht v).bind fun _ =>
      (Frame.ofBinders_has v [b]).bind fun _ => .pure _
  | letIn i bs b ihbs ihb =>
    exact fun v => T.options.bind fun _ => (collectBindings_has_of v ihbs).bind fun _ =>
      (lowerBindings_has v bs).bind fun _ => (ihb v).bind fun _ => .pure _
  | ite i c a b ihc iha ihb =>
    exact fun v => T.options.bind fun _ => (lowerExpr_has c v).bind fun _ =>
      (ihc v).bind fun _ => (iha v).bind fun _ => (ihb v).bind fun _ => .pure _
  | cases i e arms ihe iharms =>
    intro v
    refine T.options.bind fun _ => (matchedDatatype_has _).bind fun _ =>
      (lowerExpr_has e v).bind fun _ => (ihe v).bind fun _ => (Has.datatype _).bind fun _ =>
      .bind (.mapM fun k _ => ?_) fun _ => .pure _
    rw [collectArms_eq, List.find?_map]
    cases hp : arms.find? ((·.1.ctor == k.name) ∘ fun p => (p.1, collect kind v p.2)) with
    | none => exact (Has.pure _).bind fun _ => .pure _
    | some p =>
      exact (caseBindings_has _ _ _ _).bind fun _ =>
        (iharms p (List.mem_of_find?_eq_some hp) v).bind fun _ => (Has.pure _).bind fun _ =>
        .pure _
  | call i f r es ihr ihes =>
    exact fun v => (collect?_has_of v ihr).bind fun _ => (collectList_has_of v ihes).bind fun _ =>
      (collectNode_has v kind _).bind fun _ => .pure _

theorem isTotal_has (e : Source.Expr) : T.Has (isTotal v e) :=
  (collect_has .obligations e v).bind fun _ => .pure _

theorem canCall_has (e : Source.Expr) : T.Has (canCall v e) :=
  (collect_has .facts e v).bind fun _ => .pure _

/-! ## Induction and opened predicates -/

theorem Induction.candidates_has (level : Nat) (es : List Source.Expr) :
    T.Has (Induction.candidates level es) := by
  refine T.env (fun env => ?_) fun _ hcalls => by rw [hcalls]
  dsimp only
  split <;> exact .pure _

theorem Induction.caseSplit_has (vars : List Source.Binder) :
    T.Has (Induction.caseSplit vars) := by
  induction vars with
  | nil => exact .pure _
  | cons x vars ih =>
    obtain ⟨x, t⟩ := x
    cases t with
    | datatype p ts => exact (Has.datatype p).bind fun _ => .pure _
    | _ => exact ih

theorem inductionVars_has (attr : Source.Induction) (binders : List Source.Binder)
    (es : List Source.Expr) : T.Has (inductionVars attr binders es) := by
  cases attr with
  | off => exact .pure _
  | vars xs => exact .pure _
  | default =>
    exact T.options.bind fun _ => (Induction.candidates_has _ es).bind fun _ => .pure _

theorem openedBody?_has (f : Function) (receiver : Option Source.Expr)
    (args : List Source.Expr) : T.Has (openedBody? f receiver args) := by
  refine (Has.isSameModule _).bind fun _ => ?_
  split
  · exact .pure _
  · split <;> exact .pure _

end ContractLowering
