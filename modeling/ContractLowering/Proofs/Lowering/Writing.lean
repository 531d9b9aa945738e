import ContractLowering.Proofs.Lowering.Definedness
import ContractLowering.Proofs.Lowering.Extends
import ContractLowering.Proofs.Lowering.Steps

/-!
# Code without control flow, and what it writes

A layout is a property of code that sequences keep, and `x.Lays c L V` says that a computation
appends code of a layout, returns values with a property, and only adds to the state. The steps that
statements are made of append code without control flow. It writes nothing but numbered locals, the
heap and the targets of the statement (`Stmt.Writing`).
-/

namespace ContractLowering

open IL Source

/-- A property of code that sequences keep, and of the states in which such code is lowered. -/
structure Layout where
  In : Progress → Prop
  keep : ∀ {s s' : Progress}, s.Extends s' → In s → In s'
  Holds : List IL.Stmt → Prop
  nil : Holds []
  append : ∀ {a b : List IL.Stmt}, Holds a → Holds b → Holds (a ++ b)

/-- Code whose statements have a property. -/
def Layout.each (P : IL.Stmt → Prop) : Layout where
  In _ := True
  keep _ := id
  Holds ss := ∀ t ∈ ss, P t
  nil := List.forall_mem_nil _
  append ha hb := List.forall_mem_append.2 ⟨ha, hb⟩

namespace BodyM

variable {α β : Type} {c : Context} {L : Layout}

/-- A computation that adds to the state, appends code of a layout and returns values with a
property. -/
def Lays (x : BodyM α) (c : Context) (L : Layout) (V : α → Prop) : Prop :=
  ∀ ⦃s a ss s'⦄, L.In s → x.Emits c s a ss s' → s.Extends s' ∧ L.Holds ss ∧ V a

namespace Lays

theorem pure {V : α → Prop} {a : α} (h : V a) : (Pure.pure a : BodyM α).Lays c L V := by
  intro s b ss s' _ hb
  obtain ⟨rfl, rfl, rfl⟩ := emits_pure.1 hb
  exact ⟨.refl _, L.nil, h⟩

theorem bind {V : α → Prop} {W : β → Prop} {x : BodyM α} {f : α → BodyM β} (hx : x.Lays c L V)
    (hf : ∀ a, V a → (f a).Lays c L W) : (x >>= f).Lays c L W := by
  intro s b ss s' hin h
  obtain ⟨a, s₁, ss₁, ss₂, ha, hb, rfl⟩ := emits_bind.1 h
  obtain ⟨hs, hss, hV⟩ := hx hin ha
  obtain ⟨hs', hss', hW⟩ := hf a hV (L.keep hs hin) hb
  exact ⟨hs.trans hs', L.append hss hss', hW⟩

/-- A computation after one of whose value nothing is known. -/
theorem andThen {W : β → Prop} {x : BodyM α} {f : α → BodyM β} {V : α → Prop}
    (hx : x.Lays c L V) (hf : ∀ a, (f a).Lays c L W) : (x >>= f).Lays c L W :=
  hx.bind fun a _ => hf a

theorem ofDecl {x : DeclM α} (hx : x.Grows) : (BodyM.ofDecl x).Lays c L fun _ => True := by
  intro s a ss s' _ h
  obtain ⟨hgives, rfl⟩ := emits_ofDecl.1 h
  exact ⟨hx.extends_of_gives hgives, L.nil, trivial⟩

/-- The value of an expression lowering is known to be one that it returns. -/
theorem returned {V : α → Prop} {x : ExprM α} (hV : ∀ env a, x.Returns env a → V a) :
    (BodyM.ofDecl (DeclM.ofExpr x)).Lays c L V := by
  intro s a ss s' _ h
  obtain ⟨⟨ha, rfl⟩, rfl⟩ := emits_expr.1 h
  exact ⟨s.extends_foldl_declare _, L.nil, hV _ a ha⟩

theorem ofExpr (x : ExprM α) : (BodyM.ofDecl (DeclM.ofExpr x)).Lays c L fun _ => True :=
  returned fun _ _ _ => trivial

theorem reject {V : α → Prop} {m : Message} :
    (BodyM.ofDecl (DeclM.reject m)).Lays c L V := by
  intro s a ss s' _ h
  exact (DeclM.gives_reject (emits_ofDecl.1 h).1).elim

theorem add {ss : List IL.Stmt} (h : L.Holds ss) : (BodyM.add ss).Lays c L fun _ => True := by
  intro s a ts s' _ hadd
  obtain ⟨rfl, rfl⟩ := emits_add.1 hadd
  exact ⟨.refl _, h, trivial⟩

theorem mono {L' : Layout} {V V' : α → Prop} {x : BodyM α} (h : x.Lays c L V)
    (hin : ∀ s, L'.In s → L.In s) (hL : ∀ ss, L.Holds ss → L'.Holds ss)
    (hV : ∀ a, V a → V' a) : x.Lays c L' V' :=
  fun _ _ _ _ hs hx => (h (hin _ hs) hx).imp id fun h' => ⟨hL _ h'.1, hV _ h'.2⟩

theorem forget {V : α → Prop} {x : BodyM α} (h : x.Lays c L V) : x.Lays c L fun _ => True :=
  h.mono (fun _ => id) (fun _ => id) fun _ _ => trivial

theorem inside {V : α → Prop} {x : BodyM α} (h : x.Lays c L V) :
    (BodyM.inside x).Lays c L fun p => V p.1 ∧ L.Holds p.2 := by
  intro s p ss s' hin hinside
  obtain ⟨hx, rfl⟩ := emits_inside.1 hinside
  obtain ⟨hs, hss, hV⟩ := h hin hx
  exact ⟨hs, L.nil, hV, hss⟩

theorem block {V : Unit → Prop} {x : BodyM Unit} (h : x.Lays c L V) :
    (BodyM.block x).Lays c L L.Holds :=
  h.inside.bind fun _ hp => .pure hp.2

theorem mapM {V : β → Prop} {f : α → BodyM β} {l : List α} (hf : ∀ a ∈ l, (f a).Lays c L V) :
    (l.mapM f).Lays c L fun bs => ∀ b ∈ bs, V b := by
  induction l with
  | nil => exact .pure (List.forall_mem_nil _)
  | cons a l ih =>
    rw [List.mapM_cons]
    exact (hf a (by simp)).bind fun b hb => (ih fun a ha => hf a (by simp [ha])).bind fun bs hbs =>
      .pure (List.forall_mem_cons.2 ⟨hb, hbs⟩)

theorem forM {f : α → BodyM Unit} {l : List α} (hf : ∀ a ∈ l, (f a).Lays c L fun _ => True) :
    (l.forM f).Lays c L fun _ => True := by
  induction l with
  | nil => exact .pure trivial
  | cons a l ih => exact (hf a (by simp)).andThen fun _ => ih fun a ha => hf a (by simp [ha])

end Lays

end BodyM

/-- A statement without control flow that writes only some variables. -/
def IL.Stmt.Writing (N : String → Prop) : IL.Stmt → Prop
  | .assume _ | .assert .. => True
  | .havoc x | .assign x _ => N x
  | _ => False

/-- Code without control flow that writes only some variables. -/
abbrev Layout.writing (N : String → Prop) : Layout := .each (IL.Stmt.Writing N)

/-- Numbered locals and the heap, which lowered code writes on its own account, are among some
variables. -/
structure WritesOwn (N : String → Prop) : Prop where
  numbered : ∀ x, '%' ∈ x.toList → N x
  heap : N Prelude.heapName

/-- The variable that a target is, if it is one, is among some variables. -/
def Target.Within (N : String → Prop) : Target → Prop
  | .var x _ => N x
  | .heap .. | .range .. => True

/-- The variable that a left-hand side is, if it is one, is among some variables. -/
def Source.Lhs.Within (N : String → Prop) : Lhs → Prop
  | .var _ x _ => N x
  | .field .. | .index .. | .range .. => True

namespace Writing

open BodyM (emits_expr_bind emits_add)
open BodyM.Lays (ofDecl ofExpr)

/-- Any value. -/
abbrev Any {α : Type} (_ : α) : Prop := True

variable {α : Type} {c : Context} {N : String → Prop}

theorem assume (e : IL.Expr) : (BodyM.assume e).Lays c (.writing N) Any :=
  .add (by simp [Layout.each, IL.Stmt.Writing])

theorem assert (m : Message) (e : IL.Expr) : (BodyM.assert m e).Lays c (.writing N) Any :=
  .add (by simp [Layout.each, IL.Stmt.Writing])

theorem havoc {x : String} (hx : N x) : (BodyM.havoc x).Lays c (.writing N) Any :=
  .add (by simpa [Layout.each, IL.Stmt.Writing] using hx)

theorem assign {x : String} (hx : N x) (e : IL.Expr) :
    (BodyM.assign x e).Lays c (.writing N) Any :=
  .add (by simpa [Layout.each, IL.Stmt.Writing] using hx)

theorem assume? (o : Option IL.Expr) : (BodyM.assume? o).Lays c (.writing N) Any := by
  cases o with
  | none => exact .pure trivial
  | some e => exact assume e

theorem storeIn {x : String} (hx : N x) (s : Srt) (e : IL.Expr) :
    (BodyM.storeIn x s e).Lays c (.writing N) Any :=
  (ofDecl (.declareLocal x s)).andThen fun _ => (assign hx e).andThen fun _ => .pure trivial

theorem conditions {ss : List IL.Stmt} (h : ∀ t ∈ ss, t.isCondition = true) :
    (Layout.writing N).Holds ss := by
  intro t ht
  have := h t ht
  cases t <;> simp_all [IL.Stmt.isCondition, IL.Stmt.Writing]

theorem define (v : View) (e : Source.Expr) : (BodyM.define v e).Lays c (.writing N) Any := by
  intro s a ss s' _ h
  simp only [BodyM.define, emits_expr_bind, emits_add] at h
  obtain ⟨ts, hts, rfl, rfl⟩ := h
  exact ⟨s.extends_foldl_declare _, conditions (definedness_splits hts).2.2, trivial⟩

theorem value (v : View) (e : Source.Expr) : (BodyM.value v e).Lays c (.writing N) Any :=
  (define v e).andThen fun _ => ofExpr _

theorem assertNonNull (obj : Source.Expr) (o : IL.Expr) :
    (BodyM.assertNonNull obj o).Lays c (.writing N) Any := by
  unfold BodyM.assertNonNull
  split
  · exact .pure trivial
  · exact assert _ _

theorem assertNat (e : Source.Expr) (t : Typ) (x : IL.Expr) :
    (BodyM.assertNat e t x).Lays c (.writing N) Any := by
  unfold BodyM.assertNat
  split
  · exact assert _ _
  · exact .pure trivial

theorem rejectRepeated (span : Span) (targets : List Target) :
    (ContractLowering.rejectRepeated span targets).Lays c (.writing N) Any := by
  unfold ContractLowering.rejectRepeated
  split
  · exact .reject
  · exact .pure trivial

theorem assertDistinct (s t : Store) :
    (ContractLowering.assertDistinct s t).Lays c (.writing N) Any := by
  unfold ContractLowering.assertDistinct
  split
  · exact .pure trivial
  · exact assert _ _

/-! ## Goals -/

theorem assertGoal (b : Body) (v : View) (e : Source.Expr) (inherited : Bool) (note : String) :
    (b.assertGoal v e inherited note).Lays c (.writing N) Any := by
  refine (ofDecl .context).andThen fun _ => (ofDecl (split_grows v e true)).andThen fun parts =>
    .add (conditions fun t ht => ?_)
  simp only [List.mem_append, List.mem_map] at ht
  rcases ht with ⟨p, -, rfl⟩ | ⟨p, -, rfl⟩
  · split <;> rfl
  · rfl

theorem establish (b : Body) (v : View) (note : String) (specs : List Spec) :
    (b.establish v note specs).Lays c (.writing N) Any := by
  refine .forM fun s _ => (define v s.expr).andThen fun _ => ?_
  split
  · exact (ofExpr _).andThen fun _ => assume _
  · exact assertGoal b v _ _ _

theorem assumeForall (v : View) (d : Domain) (facts : List IL.Expr) :
    (ContractLowering.assumeForall v d facts).Lays c (.writing N) Any :=
  (ofExpr _).andThen fun _ => (ofExpr _).andThen fun _ => assume _

theorem forallEnsures (v : View) (d : Domain) (callee : Method) (receiver : Option Source.Expr)
    (args : List Source.Expr) :
    (ContractLowering.forallEnsures v d callee receiver args).Lays c (.writing N) Any :=
  (ofExpr _).andThen fun _ => assumeForall v d _

theorem assertInjective (v : View) (span : Span) (d : Domain) (lhs : Lhs) (e : Source.Expr) :
    (ContractLowering.assertInjective v span d lhs e).Lays c (.writing N) Any :=
  (ofDecl .freshId).andThen fun _ => (ofDecl (forallLocation_grows v lhs)).andThen fun _ =>
    (ofDecl (forallLocation_grows v _)).andThen fun _ => (ofExpr _).andThen fun _ =>
    (ofExpr _).andThen fun _ => (ofExpr _).andThen fun _ => (ofExpr _).andThen fun _ => assert _ _

theorem havocDomain (v : View) {d : Domain} (hd : ∀ b ∈ d.binders, N b.1) :
    (ContractLowering.havocDomain v d).Lays c (.writing N) Any := by
  refine (BodyM.Lays.forM fun b hb => (ofDecl (.declareLocal _ _)).andThen fun _ =>
    havoc (hd b hb)).andThen fun _ => (ofExpr _).andThen fun _ => (assume _).andThen fun _ => ?_
  cases d.range with
  | none => exact .pure trivial
  | some r => exact (value v r).andThen fun _ => assume _

theorem assertModifies (v : View) (span : Span) (callee : Method)
    (bindings : List (String × IL.Expr)) :
    (Body.assertModifies v span callee bindings).Lays c (.writing N) Any := by
  unfold Body.assertModifies
  split
  · exact (ofExpr _).andThen fun _ => assert _ _
  · exact .pure trivial

theorem assertDescends (b : Body) (v : View) (span : Span) (m : Path) (callee : Method)
    (bindings : List (String × IL.Expr)) :
    (b.assertDescends v span m callee bindings).Lays c (.writing N) Any := by
  unfold Body.assertDescends
  split
  · exact .pure trivial
  · refine (ofExpr _).andThen fun checks => .add fun t ht => ?_
    obtain ⟨k, -, rfl⟩ := List.mem_map.1 ht
    trivial

theorem assertDescent (l : LoopFrame) (span : Span) (spec : LoopSpec) (olds : List MeasureValue) :
    (l.assertDescent span spec olds).Lays c (.writing N) Any := by
  unfold LoopFrame.assertDescent
  split
  · exact .pure trivial
  split
  · exact assert _ _
  · exact (ofExpr _).andThen fun _ => assert _ _

theorem bindPattern (dt : Datatype) (path : Path) {p : Pattern} (hp : ∀ b ∈ p.binders, N b.1)
    (s : IL.Expr) : (ContractLowering.bindPattern dt path p s).Lays c (.writing N) Any := by
  have names : ∀ env bs, (caseBindings dt path p s).Returns env bs → ∀ b ∈ bs, N b.1 := by
    intro env bs h b hb
    simp only [caseBindings, ExprM.returns_bind, ExprM.returns_pure] at h
    obtain ⟨k, -, rfl⟩ := h
    obtain ⟨q, hq, rfl⟩ := List.mem_map.1 hb
    exact hp _ (List.of_mem_zip hq).1
  refine (BodyM.Lays.returned names).bind fun bs hbs => .forM fun q hq => ?_
  exact (ofDecl (.declareLocal _ _)).andThen fun _ => assign (hbs _ (List.of_mem_zip hq).2) _

/-! ## Numbered locals and the heap -/

section

variable (hN : WritesOwn N)
include hN

theorem temp (s : Srt) (e : IL.Expr) : (BodyM.temp s e).Lays c (.writing N) Any :=
  (ofDecl .freshId).andThen fun n => storeIn (hN.numbered _ (by simp [Naming.temp])) s e

theorem updateHeap (o f b : IL.Expr) : (BodyM.updateHeap o f b).Lays c (.writing N) Any :=
  (assign hN.heap _).andThen fun _ => assume _

theorem havocHeap : BodyM.havocHeap.Lays c (.writing N) Any :=
  (ofDecl .freshId).andThen fun n =>
    (storeIn (hN.numbered _ (by simp [Naming.prevHeap])) _ _).andThen fun _ =>
    (havoc hN.heap).andThen fun _ => (assume _).andThen fun _ => .pure trivial

theorem snapshot {name : Nat → String} (hname : ∀ n, '%' ∈ (name n).toList)
    (vs : List MeasureValue) : (BodyM.snapshot name vs).Lays c (.writing N) Any :=
  (BodyM.Lays.mapM (V := Any) fun _ _ =>
    (storeIn (hN.numbered _ (hname _)) _ _).andThen fun _ => .pure trivial).forget

theorem assignOuts {b : Body} (hb : ∀ o ∈ b.outs, N o.1) (v : View) (es : List Source.Expr) :
    (b.assignOuts v es).Lays c (.writing N) Any := by
  refine (BodyM.Lays.mapM (V := Any) fun p _ => (value v p.1).andThen fun _ =>
    (assertNat _ _ _).andThen fun _ => temp hN _ _).andThen fun values => .forM fun p hp => ?_
  exact assign (hb _ (List.of_mem_zip hp).1) _

theorem store {t : Target} (ht : t.Within N) (value : IL.Expr) :
    (t.store value).Lays c (.writing N) Any := by
  cases t with
  | var x t => exact assign ht _
  | heap o f t => exact updateHeap hN _ _ _
  | range a lo hi t => exact (havocHeap hN).andThen fun _ => assume _

theorem ofLhs (v : View) {lhs : Lhs} (hl : lhs.Within N) :
    (Target.ofLhs v lhs).Lays c (.writing N) (Target.Within N) := by
  cases lhs with
  | var => exact .pure hl
  | field span obj fid =>
    refine (ofExpr _).andThen fun f => ?_
    dsimp only
    split
    · exact BodyM.Lays.reject.bind (V := fun _ => False) fun _ h => h.elim
    · exact (value v obj).andThen fun _ => (temp hN _ _).andThen fun o =>
        (assertNonNull obj o).andThen fun _ => (assert _ _).andThen fun _ => (ofExpr _).andThen
        fun _ => .pure trivial
  | index span arr idx =>
    exact (ofExpr _).andThen fun _ => (define v arr).andThen fun _ => (define v idx).andThen fun _ =>
      (ofExpr _).andThen fun _ => (temp hN _ _).andThen fun a => (ofExpr _).andThen fun _ =>
      (temp hN _ _).andThen fun i => (assertNonNull arr a).andThen fun _ => (ofExpr _).andThen
      fun _ => (assert _ _).andThen fun _ => (assert _ _).andThen fun _ => .pure trivial
  | range span arr lo hi =>
    exact (ofExpr _).andThen fun _ => (define v arr).andThen fun _ => (define v lo).andThen fun _ =>
      (define v hi).andThen fun _ => (ofExpr _).andThen fun _ => (temp hN _ _).andThen fun a =>
      (ofExpr _).andThen fun _ => (temp hN _ _).andThen fun l => (ofExpr _).andThen fun _ =>
      (temp hN _ _).andThen fun h => (assertNonNull arr a).andThen fun _ => (ofExpr _).andThen
      fun _ => (assert _ _).andThen fun _ => (assert _ _).andThen fun _ => .pure trivial

theorem allocate (p : Path) : (ContractLowering.allocate p).Lays c (.writing N) Any :=
  (ofDecl .freshId).andThen fun n => (ofDecl (.declareLocal _ _)).andThen fun _ =>
    (havoc (hN.numbered _ (by simp [Naming.newObject]))).andThen fun _ => (ofExpr _).andThen fun _ =>
    (assume _).andThen fun _ => (updateHeap hN _ _ _).andThen fun _ => .pure trivial

theorem evalRhs (v : View) (t : Typ) (rhs : Rhs) :
    (ContractLowering.evalRhs v t rhs).Lays c (.writing N) Any := by
  cases rhs with
  | expr e =>
    exact (value v e).andThen fun _ => (assertNat e t _).andThen fun _ => .pure trivial
  | havoc t =>
    exact (ofDecl .freshId).andThen fun n => (ofDecl (.declareLocal _ _)).andThen fun _ =>
      (havoc (hN.numbered _ (by simp [Naming.temp]))).andThen fun _ => (ofExpr _).andThen fun o =>
      (assume? o).andThen fun _ => .pure trivial
  | new path ts =>
    exact (allocate hN path).andThen fun _ => (ofDecl .context).andThen fun _ =>
      (ofExpr _).andThen fun _ => (BodyM.Lays.forM fun _ _ => (ofExpr _).andThen fun _ =>
        (ofExpr _).andThen fun o => assume? o).andThen fun _ => .pure trivial
  | newArray elem length =>
    exact (value v length).andThen fun _ => (temp hN _ _).andThen fun _ => (assert _ _).andThen
      fun _ => (allocate hN _).andThen fun _ => (ofExpr _).andThen fun _ => (assume _).andThen
      fun _ => ((ofExpr _).andThen fun o => assume? _).andThen fun _ => .pure trivial

theorem evalStore (v : View) (several : Bool) {p : (Lhs × Target) × Rhs}
    (hp : p.1.2.Within N) :
    (ContractLowering.evalStore v several p).Lays c (.writing N) fun s => s.target.Within N := by
  refine (evalRhs hN v _ _).andThen fun x => ?_
  unfold keepValue
  split
  · exact (temp hN _ _).andThen fun _ => .pure hp
  · exact .pure hp

theorem lowerAssign (v : View) (span : Span) {lhss : List Lhs} (hl : ∀ l ∈ lhss, l.Within N)
    (rhss : List Rhs) : (ContractLowering.lowerAssign v span lhss rhss).Lays c (.writing N) Any := by
  rw [lowerAssign_eq]
  refine (BodyM.Lays.mapM fun l hmem => ofLhs hN v (hl l hmem)).bind fun targets htargets =>
    (rejectRepeated span targets).andThen fun _ => ?_
  refine (BodyM.Lays.mapM fun p hp => evalStore hN v _
    (htargets _ (List.of_mem_zip (List.of_mem_zip hp).1).2)).bind fun stores hstores => ?_
  exact (BodyM.Lays.forM fun _ _ => assertDistinct _ _).andThen fun _ =>
    .forM fun s hs => store hN (hstores s hs) _

theorem lowerVarDecl (v : View) {x : String} (hx : N x) (t : Typ) (rhs : Option Rhs) :
    (ContractLowering.lowerVarDecl v x t rhs).Lays c (.writing N) Any := by
  refine (ofDecl (.declareLocal x _)).andThen fun _ => ?_
  cases rhs with
  | none => exact (havoc hx).andThen fun _ => (ofExpr _).andThen fun o => assume? o
  | some r => exact (evalRhs hN v t r).andThen fun _ => assign hx _

theorem passArg (s : Srt) (e : IL.Expr) :
    (ContractLowering.passArg s e).Lays c (.writing N) Any :=
  (ofDecl .freshId).andThen fun _ => storeIn (hN.numbered _ (by simp [Naming.callArg])) _ _

theorem passThis (v : View) (callee : Method) (receiver : Option Source.Expr) :
    (Body.passThis v callee receiver).Lays c (.writing N) Any := by
  unfold Body.passThis
  split
  · exact .pure trivial
  · refine BodyM.Lays.andThen (V := Any) ?_ fun _ => .pure trivial
    unfold passReceiver
    split
    · exact passArg hN _ _
    · exact (value v _).andThen fun _ => (assertNonNull _ _).andThen fun _ => passArg hN _ _

theorem passArgs (v : View) (params : List Source.Binder) (args : List Source.Expr) :
    (ContractLowering.passArgs v params args).Lays c (.writing N) Any :=
  (BodyM.Lays.mapM (V := Any) fun p _ => (value v p.1).andThen fun _ =>
    (assertNat _ _ _).andThen fun _ => (passArg hN _ _).andThen fun _ => .pure trivial).forget

theorem assignForall (v : View) (d : Domain) (lhs : Lhs) (e : Source.Expr) :
    (ContractLowering.assignForall v d lhs e).Lays c (.writing N) Any :=
  (havocHeap hN).andThen fun _ => (ofDecl (forallLocation_grows _ _)).andThen fun _ =>
    (ofExpr _).andThen fun _ => (ofExpr _).andThen fun _ => (ofExpr _).andThen fun _ =>
    (assume _).andThen fun _ => assume _

theorem extendHistory (v : View) (i : Iterator) (y : Source.Binder) :
    (ContractLowering.extendHistory v i y).Lays c (.writing N) Any :=
  (ofExpr _).andThen fun _ => (ofExpr _).andThen fun _ => updateHeap hN _ _ _

theorem enterView (v : View) (span : Span) (n : Nat) (mods : Option (List Source.Expr)) :
    (LoopFrame.enterView v span n mods).Lays c (.writing N) Any := by
  cases mods with
  | none => exact .pure trivial
  | some mods =>
    exact (BodyM.Lays.forM fun _ _ => define v _).andThen fun _ => (ofExpr _).andThen fun _ =>
      (assert _ _).andThen fun _ => (ofDecl (.declareLocal _ _)).andThen fun _ =>
      (ofExpr _).andThen fun _ =>
      (assign (hN.numbered _ (by simp [Naming.loopFrame])) _).andThen fun _ => .pure trivial

end

end Writing

end ContractLowering
