import ContractLowering.Lowering.Definedness
import ContractLowering.Proofs.Lowering.Alike
import ContractLowering.Proofs.Lowering.Definedness

/-!
# Definedness and chosen triggers

What is checked of an expression is the same whether or not triggers are chosen. A check is dropped
where it is trivially true, and whether it is does not depend on triggers.
-/

namespace ContractLowering

open IL Source ExprM

attribute [local simp] Boxing.ren_box Boxing.ren_convert Prelude.null Prelude.seqLength
  Prelude.setMem Prelude.mapDomain Prelude.setSubset Prelude.setEqual Prelude.multisetSubset
  Prelude.multisetEqual Prelude.dtRank Heap.obj inRange

/-! ## Measures -/

/-- The component without triggers. -/
def MeasureValue.erase (m : MeasureValue) : MeasureValue := { m with expr := m.expr.erase }

namespace Termination

@[simp] theorem commonOrder?_erase (o n : MeasureValue) :
    commonOrder? o.erase n.erase = commonOrder? o n := rfl

theorem erase_less (order : Order) (o n : IL.Expr) :
    (less order o n).erase = less order o.erase n.erase := by
  cases order <;> simp [less]

theorem erase_unchanged (o n : MeasureValue) :
    (unchanged o n).erase = unchanged o.erase n.erase := by
  unfold unchanged MeasureValue.erase
  split <;> simp [erase_typedEq]

theorem erase_decreases (allowEqual : Bool) (olds news : List MeasureValue) :
    (decreases allowEqual olds news).erase =
      decreases allowEqual (olds.map MeasureValue.erase) (news.map MeasureValue.erase) := by
  induction olds generalizing news with
  | nil => simp [decreases]
  | cons o os ih =>
    cases news with
    | nil => simp [decreases]
    | cons n ns =>
      simp only [decreases, List.map_cons, commonOrder?_erase]
      cases commonOrder? o n with
      | none => simp
      | some order =>
        simp [erase_less, erase_unchanged, ih]
        simp [MeasureValue.erase]

theorem map_erase_bounds (before : List IL.Expr) (olds news : List MeasureValue) :
    (bounds before olds news).map IL.Expr.erase =
      bounds (before.map IL.Expr.erase) (olds.map MeasureValue.erase)
        (news.map MeasureValue.erase) := by
  induction olds generalizing before news with
  | nil => simp [bounds]
  | cons o os ih =>
    cases news with
    | nil => simp [bounds]
    | cons n ns =>
      simp only [bounds, List.map_cons, commonOrder?_erase]
      cases commonOrder? o n with
      | none => simp
      | some order =>
        simp only [List.map_append, ih, List.map_cons, List.map_nil, erase_unchanged]
        congr 1
        split <;> simp [MeasureValue.erase]

theorem map_erase_bounded? (olds news : List MeasureValue) :
    (bounded? olds news).map IL.Expr.erase =
      bounded? (olds.map MeasureValue.erase) (news.map MeasureValue.erase) := by
  have h := map_erase_bounds [] olds news
  rw [List.map_nil] at h
  unfold bounded?
  rw [← h]
  cases bounds [] olds news <;> simp

theorem values_alike (v : View) (m : Measure) :
    Alike (List.map MeasureValue.erase) (values v m) (values v m) := by
  refine Alike.mapM fun e _ => ?_
  cases e with
  | expr e =>
    exact (lowerExpr_alike e v).bind fun a a' ha => .pure (by simp [MeasureValue.erase, ha])
  | yields counter => exact .pure rfl

theorem bindValues_erase {bs bs' : List (String × IL.Expr)} {vs vs' : List MeasureValue}
    (hbs : IL.Expr.eraseBindings bs = IL.Expr.eraseBindings bs')
    (hvs : vs.map MeasureValue.erase = vs'.map MeasureValue.erase) :
    (bindValues bs vs).map MeasureValue.erase = (bindValues bs' vs').map MeasureValue.erase := by
  have (bs : List (String × IL.Expr)) (vs : List MeasureValue) :
      (bindValues bs vs).map MeasureValue.erase =
        bindValues (IL.Expr.eraseBindings bs) (vs.map MeasureValue.erase) := by
    simp [bindValues, MeasureValue.erase, Function.comp_def]
  rw [this, this, hbs, hvs]

/-- The measure on entry without triggers. -/
def Entry.erase (e : Entry) : Entry := { e with olds := e.olds.map MeasureValue.erase }

/-- Obligations of calls without triggers. -/
abbrev eraseChecks (checks : List (IL.Expr × Message)) : List (IL.Expr × Message) :=
  checks.map fun c => (c.1.erase, c.2)

theorem callChecks_alike (v : View) {entry entry' : Entry} (he : entry.erase = entry'.erase)
    (callee : Path) (measure : Measure) {bs bs' : List (String × IL.Expr)}
    (hbs : IL.Expr.eraseBindings bs = IL.Expr.eraseBindings bs') (span : Span) :
    Alike eraseChecks (callChecks v entry callee measure bs span)
      (callChecks v entry' callee measure bs' span) := by
  obtain ⟨current, olds, inferred, wildcard⟩ := entry
  obtain ⟨current', olds', inferred', wildcard'⟩ := entry'
  simp only [Entry.erase, Entry.mk.injEq] at he
  obtain ⟨rfl, holds, rfl, rfl⟩ := he
  refine (Alike.inSameComponent _ _).bind_id fun b => (Alike.isRecursive _).bind_id fun r => ?_
  split
  · exact .pure rfl
  refine (values_alike v measure).bind fun vs vs' hvs => .pure ?_
  have hnews := bindValues_erase hbs hvs
  have hbounded : (bounded? olds (bindValues bs vs)).map IL.Expr.erase =
      (bounded? olds' (bindValues bs' vs')).map IL.Expr.erase := by
    rw [map_erase_bounded?, map_erase_bounded?, holds, hnews]
  cases h : bounded? olds (bindValues bs vs) <;> cases h' : bounded? olds' (bindValues bs' vs') <;>
    simp [h, h'] at hbounded <;> simp [erase_decreases, holds, hnews, hbounded]

end Termination

/-! ## Obligations -/

/-- The obligation without triggers. -/
def Obligation.erase (o : Obligation) : Obligation := { o with cond := o.cond.erase }

/-- The limits without triggers. -/
def Limits.erase (l : Limits) : Limits :=
  { l with termination := l.termination.map Termination.Entry.erase }

theorem Limits.reads_of_erase {l l' : Limits} (h : l.erase = l'.erase) : l.reads = l'.reads :=
  (congrArg Limits.reads h : l.erase.reads = l'.erase.reads)

/-- The receiver and the arguments of a call, bound to their names. -/
theorem eraseBindings_callee (xs : List String) (this args : List IL.Expr) :
    IL.Expr.eraseBindings (this.map (Naming.this, ·) ++ xs.zip args) =
      (this.map IL.Expr.erase).map (Naming.this, ·) ++ xs.zip (args.map IL.Expr.erase) := by
  rw [List.zip_map_right]
  simp [Function.comp_def]

namespace Obligation

@[simp] theorem erase_mk (cond : IL.Expr) (msg : Message) :
    (⟨cond, msg⟩ : Obligation).erase = ⟨cond.erase, msg⟩ := rfl

theorem nonNull_alike (v : View) (obj : Source.Expr) :
    Alike (List.map erase) (nonNull v obj) (nonNull v obj) := by
  unfold nonNull
  split
  · exact .pure rfl
  · exact (lowerExpr_alike obj v).bind fun a a' ha => .pure (by simp [ha])

theorem natArgs_alike (v : View) (args : List Source.Expr) (params : List Source.Binder) :
    Alike (List.map erase) (natArgs v args params) (natArgs v args params) := by
  induction args generalizing params with
  | nil => exact .pure rfl
  | cons arg args ih =>
    cases params with
    | nil => exact .pure rfl
    | cons param params =>
      unfold natArgs
      dsimp only
      split
      · refine (lowerExpr_alike arg v).bind fun a a' ha => ?_
        exact (ih params).bind fun os os' hos => .pure (by simp [ha, hos])
      · exact (ih params).bind fun os os' hos => .pure (by simp [hos])

theorem inReads_alike (v : View) (reads : Option (List Source.Expr)) (obj : Source.Expr)
    (note : String) :
    Alike (List.map erase) (inReads v reads obj note) (inReads v reads obj note) := by
  cases reads with
  | none => exact .pure rfl
  | some frame =>
    refine (lowerExpr_alike obj v).bind fun o o' ho => ?_
    exact (frameContains_alike v frame ho).bind fun a a' ha => .pure (by simp [ha])

theorem lengthOf_alike (v : View) (coll : Source.Expr) :
    Alike IL.Expr.erase (lengthOf v coll) (lengthOf v coll) := by
  refine (lowerExpr_alike coll v).bind fun a a' ha => ?_
  split
  · exact Heap.arrayLength_alike ha
  · exact .pure (by simp [ha])

theorem arrayRead_alike (v : View) {limits limits' : Limits} (hl : limits.erase = limits'.erase)
    (coll : Source.Expr) :
    Alike (List.map erase) (arrayRead v limits coll) (arrayRead v limits' coll) := by
  unfold arrayRead
  rw [Limits.reads_of_erase hl]
  split
  · refine (nonNull_alike v coll).bind fun a a' ha => ?_
    exact (inReads_alike v _ coll _).bind fun b b' hb => .pure (by simp [ha, hb])
  · exact .pure rfl

theorem calleeBindings_alike (v : View) (owner : Option Path) (params : List Source.Binder)
    (receiver : Option Source.Expr) (args : List Source.Expr) :
    Alike IL.Expr.eraseBindings (calleeBindings v owner params receiver args)
      (calleeBindings v owner params receiver args) := by
  unfold calleeBindings
  split
  all_goals
    refine Alike.bind (h := List.map IL.Expr.erase) ?_ fun recv recv' hrecv =>
      (lowerArgs_alike v params fun e _ => lowerExpr_alike e).bind fun as as' has =>
        .pure (by rw [eraseBindings_callee, eraseBindings_callee, hrecv, has])
  · exact .pure rfl
  · exact lowerReceiver_alike v fun e _ => lowerExpr_alike e

theorem preconditions_alike (v : View) (call : Span) {bs bs' : List (String × IL.Expr)}
    (hbs : IL.Expr.eraseBindings bs = IL.Expr.eraseBindings bs') (requires : List Spec) :
    Alike (List.map erase) (preconditions v call bs requires)
      (preconditions v call bs' requires) :=
  Alike.mapM fun r _ => (lowerExpr_alike r.expr v).bind fun a a' ha => .pure (by simp [ha, hbs])

theorem readsIncluded_alike (v callee : View) (call : Span) {bs bs' : List (String × IL.Expr)}
    (hbs : IL.Expr.eraseBindings bs = IL.Expr.eraseBindings bs') (calleeReads : List Source.Expr)
    (reads : Option (List Source.Expr)) :
    Alike (List.map erase) (readsIncluded v callee call bs calleeReads reads)
      (readsIncluded v callee call bs' calleeReads reads) := by
  cases reads with
  | none => exact .pure rfl
  | some frame =>
    unfold readsIncluded
    dsimp only
    split
    · exact .pure rfl
    · refine (frameContains_alike callee calleeReads rfl).bind fun a a' ha => ?_
      exact (frameContains_alike v frame rfl).bind fun b b' hb => .pure (by simp [ha, hb, hbs])

theorem receiverObligations_alike (v : View) (receiver : Option Source.Expr) :
    Alike (List.map erase) (receiverObligations v receiver) (receiverObligations v receiver) := by
  cases receiver with
  | none => exact .pure rfl
  | some r => exact nonNull_alike v r

theorem descentObligations_alike (v : View) {entry entry' : Option Termination.Entry}
    (he : entry.map Termination.Entry.erase = entry'.map Termination.Entry.erase)
    (callee : Function) (f : Path) {bs bs' : List (String × IL.Expr)}
    (hbs : IL.Expr.eraseBindings bs = IL.Expr.eraseBindings bs') (span : Span) :
    Alike (List.map erase) (descentObligations v entry callee f bs span)
      (descentObligations v entry' callee f bs' span) := by
  cases entry <;> cases entry' <;> simp at he
  · exact .pure rfl
  · refine (Termination.callChecks_alike _ he f _ hbs span).bind fun cs cs' hcs => .pure ?_
    have := congrArg (List.map fun c => (⟨c.1, c.2⟩ : Obligation)) hcs
    simpa [Function.comp_def] using this

theorem ofCall_eq (v : View) (limits : Limits) (span : Span) (f : Path)
    (receiver : Option Source.Expr) (args : List Source.Expr) :
    ofCall v limits span f receiver args = do
      let callee ← ExprM.function f
      let there ← receiverObligations v receiver
      let nats ← natArgs v args callee.params
      let bs ← calleeBindings v callee.owner callee.params receiver args
      let inner := { v with this := none }
      let pre ← preconditions inner span bs callee.requires
      let reads ← readsIncluded v inner span bs callee.reads limits.reads
      let goesDown ← descentObligations v limits.termination callee f bs span
      return there ++ nats ++ pre ++ reads ++ goesDown := by
  obtain ⟨reads, termination⟩ := limits
  cases receiver <;> cases termination <;> simp [ofCall, receiverObligations, descentObligations]

theorem ofCall_alike (v : View) {limits limits' : Limits} (hl : limits.erase = limits'.erase)
    (span : Span) (f : Path) (receiver : Option Source.Expr) (args : List Source.Expr) :
    Alike (List.map erase) (ofCall v limits span f receiver args)
      (ofCall v limits' span f receiver args) := by
  have ht := congrArg Limits.termination hl
  rw [ofCall_eq, ofCall_eq, Limits.reads_of_erase hl]
  refine (Alike.function f).bind_id fun callee => ?_
  refine (receiverObligations_alike v receiver).bind fun there there' h₁ => ?_
  refine (natArgs_alike v args callee.params).bind fun nats nats' h₂ => ?_
  refine (calleeBindings_alike v callee.owner callee.params receiver args).bind fun bs bs' hbs => ?_
  refine (preconditions_alike _ span hbs callee.requires).bind fun pre pre' h₃ => ?_
  refine (readsIncluded_alike v _ span hbs callee.reads _).bind fun incl incl' h₄ => ?_
  refine (descentObligations_alike v ht callee f hbs span).bind fun down down' h₅ => .pure ?_
  simp [h₁, h₂, h₃, h₄, h₅]

theorem ofIndex_alike (v : View) {limits limits' : Limits} (hl : limits.erase = limits'.erase)
    (coll idx : Source.Expr) :
    Alike (List.map erase) (ofIndex v limits coll idx) (ofIndex v limits' coll idx) := by
  unfold ofIndex
  split
  case h_4 => exact .pure rfl
  case h_3 =>
    refine (lowerExpr_alike idx v).bind fun i i' hi => ?_
    exact (lowerExpr_alike coll v).bind fun c c' hc => .pure (by simp [hi, hc])
  all_goals
    refine (arrayRead_alike v hl coll).bind fun os os' hos => ?_
    refine (lowerExpr_alike idx v).bind fun i i' hi => ?_
    exact (lengthOf_alike v coll).bind fun n n' hn => .pure (by simp [hos, hi, hn])

theorem ofSlice_alike (v : View) {limits limits' : Limits} (hl : limits.erase = limits'.erase)
    (coll : Source.Expr) (lo hi : Option Source.Expr) :
    Alike (List.map erase) (ofSlice v limits coll lo hi) (ofSlice v limits' coll lo hi) := by
  refine (arrayRead_alike v hl coll).bind fun os os' hos => ?_
  refine (lengthOf_alike v coll).bind fun n n' hn => ?_
  refine (lowerExpr?_alike v fun e _ => lowerExpr_alike e).bind fun l l' hlo => ?_
  cases hi with
  | none =>
    refine .pure ?_
    cases lo <;> cases l <;> cases l' <;> simp at hlo <;> simp [hos, hlo, hn]
  | some e =>
    refine (lowerExpr_alike e v).bind fun x x' hx => .pure ?_
    cases lo <;> cases l <;> cases l' <;> simp at hlo <;> simp [hos, hlo, hn, hx]

end Obligation

theorem nodeObligations_alike (v : View) {limits limits' : Limits}
    (hl : limits.erase = limits'.erase) (e : Source.Expr) :
    Alike (List.map Obligation.erase) (nodeObligations v limits e)
      (nodeObligations v limits' e) := by
  have hreads := Limits.reads_of_erase hl
  unfold nodeObligations
  split
  · refine (Obligation.nonNull_alike v _).bind fun os os' hos => ?_
    rw [hreads]
    split
    · exact .pure hos
    · refine (Alike.field _).bind_id fun f => ?_
      split
      · exact (Obligation.inReads_alike v _ _ _).bind fun rs rs' hrs => .pure (by simp [hos, hrs])
      · exact .pure hos
  · exact Obligation.ofIndex_alike v hl _ _
  · exact Obligation.ofSlice_alike v hl _ _ _
  · rename_i coll idx _
    split
    · refine (lowerExpr_alike idx v).bind fun i i' hi => ?_
      exact (lowerExpr_alike coll v).bind fun c c' hc => .pure (by simp [hi, hc])
    · exact .pure rfl
  · exact Obligation.nonNull_alike v _
  · refine (Alike.datatype _).bind_id fun d => (Alike.ofExcept (h := id) _).bind_id fun k => ?_
    exact Obligation.natArgs_alike v _ _
  · refine (Alike.datatype _).bind_id fun d => ?_
    split
    · exact (lowerExpr_alike _ v).bind fun x x' hx => .pure (by simp [hx])
    · exact .pure rfl
  · exact (lowerExpr_alike _ v).bind fun x x' hx => .pure (by simp [hx])
  · exact (lowerExpr_alike _ v).bind fun x x' hx => .pure (by simp [hx])
  · exact Obligation.ofCall_alike v hl _ _ _ _
  · exact .pure rfl

theorem canCallFact?_alike (v : View) (e : Source.Expr) :
    Alike (Option.map IL.Expr.erase) (canCallFact? v e) (canCallFact? v e) := by
  unfold canCallFact?
  split
  · exact (lowerCallArgs_alike v _ _ _).bind fun as as' has => .pure (by simp [has])
  · exact .pure rfl

/-! ## Frames -/

namespace Frame

/-- The frame without triggers. -/
def erase : Frame → Frame
  | .guard cond => .guard cond.erase
  | .bind bs => .bind (IL.Expr.eraseBindings bs)
  | .forAll bs wheres => .forAll bs wheres.erase

theorem guard_erase {c c' : IL.Expr} (hc : c.erase = c'.erase) :
    (guard c).erase = (guard c').erase :=
  congrArg guard hc

theorem bind_erase {bs bs' : List (String × IL.Expr)}
    (hbs : IL.Expr.eraseBindings bs = IL.Expr.eraseBindings bs') :
    (bind bs).erase = (bind bs').erase :=
  congrArg bind hbs

theorem erase_wrap (auto : Bool) (e : IL.Expr) (f : Frame) :
    (f.wrap auto e).erase = f.erase.wrap false e.erase := by
  cases f with
  | guard cond => simp [wrap, erase]
  | bind bs => cases h : e.isTrue <;> simp [wrap, erase, h]
  | forAll bs wheres => cases h : e.isTrue <;> simp [wrap, erase, h]

theorem erase_wrapAll (auto : Bool) (frames : List Frame) (e : IL.Expr) :
    (wrapAll auto frames e).erase = wrapAll false (frames.map erase) e.erase := by
  induction frames generalizing e with
  | nil => rfl
  | cons f frames ih =>
    simp only [wrapAll, List.foldl_cons, List.map_cons] at ih ⊢
    rw [ih, erase_wrap]

theorem map_erase_under (auto : Bool) (f : Frame) (es : List IL.Expr) :
    (f.under auto es).map IL.Expr.erase = f.erase.under false (es.map IL.Expr.erase) := by
  have htrue (e : IL.Expr) : (f.erase.wrap false e.erase).isTrue = (f.wrap auto e).isTrue := by
    rw [← erase_wrap auto]
    simp
  induction es with
  | nil => rfl
  | cons e es ih =>
    simp only [under, List.map_cons, List.filter_cons, htrue] at ih ⊢
    split
    · simp only [List.map_cons, ih, erase_wrap]
    · exact ih

theorem ofBinders_alike (v : View) (bs : List Source.Binder) :
    Alike erase (ofBinders v bs) (ofBinders v bs) :=
  (bindersWhere_alike v.heap bs).bind fun w w' hw => .pure (by simp [erase, hw])

end Frame

theorem map_erase_assertUnder (auto : Bool) (frames : List Frame) (o : Obligation) :
    (assertUnder auto frames o).map Stmt.erase =
      assertUnder false (frames.map Frame.erase) o.erase := by
  have h := Frame.erase_wrapAll auto frames o.cond
  have htrue := congrArg IL.Expr.isTrue h
  rw [IL.Expr.isTrue_ren] at htrue
  unfold assertUnder
  dsimp only [Obligation.erase]
  rw [← htrue, ← h]
  split <;> simp

theorem map_erase_assumeUnder (auto : Bool) (frames : List Frame) (fact : IL.Expr) :
    (assumeUnder auto frames fact).map Stmt.erase =
      assumeUnder false (frames.map Frame.erase) fact.erase := by
  have h := Frame.erase_wrapAll auto frames fact
  have htrue := congrArg IL.Expr.isTrue h
  rw [IL.Expr.isTrue_ren] at htrue
  unfold assumeUnder
  dsimp only
  rw [← htrue, ← h]
  split <;> simp

/-! ## Checks as statements -/

theorem ExprM.Alike.options : Alike (fun _ => ()) ExprM.options ExprM.options := fun _ => ⟨rfl, rfl⟩

theorem checkNode_alike (v : View) {limits limits' : Limits} (hl : limits.erase = limits'.erase)
    {frames frames' : List Frame} (hf : frames.map Frame.erase = frames'.map Frame.erase)
    (e : Source.Expr) :
    Alike (List.map Stmt.erase) (checkNode v limits frames e) (checkNode v limits' frames' e) := by
  refine Alike.options.bind fun o o' _ => ?_
  refine (nodeObligations_alike v hl e).bind fun os os' hos => ?_
  refine (canCallFact?_alike v e).bind fun fact fact' hfact => .pure ?_
  have asserts (auto : Bool) (frames : List Frame) (os : List Obligation) :
      (os.flatMap (assertUnder auto frames)).map Stmt.erase =
        (os.map Obligation.erase).flatMap (assertUnder false (frames.map Frame.erase)) := by
    simp [List.map_flatMap, List.flatMap_map, map_erase_assertUnder]
  have assumes (auto : Bool) (frames : List Frame) (fact : Option IL.Expr) :
      (fact.toList.flatMap (assumeUnder auto frames)).map Stmt.erase =
        (fact.map IL.Expr.erase).toList.flatMap (assumeUnder false (frames.map Frame.erase)) := by
    cases fact <;> simp [map_erase_assumeUnder]
  rw [List.map_append, List.map_append, asserts, asserts, assumes, assumes, hos, hfact, hf]

/-- The checks of an expression are the same whether or not triggers are chosen. -/
def ChecksAlike (limits limits' : Limits) (e : Source.Expr) : Prop :=
  ∀ (v : View) {frames frames' : List Frame},
    frames.map Frame.erase = frames'.map Frame.erase →
    Alike (List.map Stmt.erase) (check v limits frames e) (check v limits' frames' e)

section Checks

variable {limits limits' : Limits}

theorem check?_alike (v : View) {o : Option Source.Expr}
    (h : ∀ e ∈ o, ChecksAlike limits limits' e) {frames frames' : List Frame}
    (hf : frames.map Frame.erase = frames'.map Frame.erase) :
    Alike (List.map Stmt.erase) (check? v limits frames o) (check? v limits' frames' o) := by
  cases o with
  | none => exact .pure rfl
  | some e => exact h e rfl v hf

theorem checkList_alike (v : View) {es : List Source.Expr}
    (h : ∀ e ∈ es, ChecksAlike limits limits' e) {frames frames' : List Frame}
    (hf : frames.map Frame.erase = frames'.map Frame.erase) :
    Alike (List.map Stmt.erase) (checkList v limits frames es) (checkList v limits' frames' es) := by
  induction es with
  | nil => exact .pure rfl
  | cons e es ih =>
    refine (h e (by simp) v hf).bind fun a a' ha => ?_
    exact (ih fun e he => h e (by simp [he])).bind fun b b' hb => .pure (by simp [ha, hb])

theorem checkEntries_alike (v : View) {es : List (Source.Expr × Source.Expr)}
    (h : ∀ e ∈ es, ChecksAlike limits limits' e.1 ∧ ChecksAlike limits limits' e.2)
    {frames frames' : List Frame} (hf : frames.map Frame.erase = frames'.map Frame.erase) :
    Alike (List.map Stmt.erase) (checkEntries v limits frames es)
      (checkEntries v limits' frames' es) := by
  induction es with
  | nil => exact .pure rfl
  | cons e es ih =>
    obtain ⟨hk, he⟩ := h e (by simp)
    refine (hk v hf).bind fun a a' ha => (he v hf).bind fun b b' hb => ?_
    exact (ih fun e he => h e (by simp [he])).bind fun c c' hc => .pure (by simp [ha, hb, hc])

theorem checkBindings_alike (v : View) {bs : List (String × Source.Expr)}
    (h : ∀ b ∈ bs, ChecksAlike limits limits' b.2) {frames frames' : List Frame}
    (hf : frames.map Frame.erase = frames'.map Frame.erase) :
    Alike (List.map Stmt.erase) (checkBindings v limits frames bs)
      (checkBindings v limits' frames' bs) := by
  induction bs with
  | nil => exact .pure rfl
  | cons b bs ih =>
    refine (h b (by simp) v hf).bind fun a a' ha => ?_
    exact (ih fun b hb => h b (by simp [hb])).bind fun c c' hc => .pure (by simp [ha, hc])

theorem cons_alike {f f' : Frame} (h : f.erase = f'.erase) {frames frames' : List Frame}
    (hf : frames.map Frame.erase = frames'.map Frame.erase) :
    (f :: frames).map Frame.erase = (f' :: frames').map Frame.erase := by
  simp [h, hf]

theorem cons_guard_alike {c c' : IL.Expr} (hc : c.erase = c'.erase) {frames frames' : List Frame}
    (hf : frames.map Frame.erase = frames'.map Frame.erase) :
    (Frame.guard c :: frames).map Frame.erase = (Frame.guard c' :: frames').map Frame.erase :=
  cons_alike (Frame.guard_erase hc) hf

theorem cons_bind_alike {bs bs' : List (String × IL.Expr)}
    (hbs : IL.Expr.eraseBindings bs = IL.Expr.eraseBindings bs') {frames frames' : List Frame}
    (hf : frames.map Frame.erase = frames'.map Frame.erase) :
    (Frame.bind bs :: frames).map Frame.erase = (Frame.bind bs' :: frames').map Frame.erase :=
  cons_alike (Frame.bind_erase hbs) hf

theorem check_alike (hl : limits.erase = limits'.erase) (e : Source.Expr) :
    ChecksAlike limits limits' e := by
  -- The operation itself is checked after its operands.
  have node (v : View) (e : Source.Expr) {frames frames' : List Frame}
      (hf : frames.map Frame.erase = frames'.map Frame.erase) {a a' : List IL.Stmt}
      (ha : a.map Stmt.erase = a'.map Stmt.erase) :
      Alike (List.map Stmt.erase) (checkNode v limits frames e >>= fun b => pure (a ++ b))
        (checkNode v limits' frames' e >>= fun b => pure (a' ++ b)) :=
    (checkNode_alike v hl hf e).bind fun b b' hb => .pure (by simp [ha, hb])
  induction e using Source.Expr.recData with
  | bool | int | null | var | this => intro v frames frames' hf; exact .pure rfl
  | field i e f ih =>
    intro v frames frames' hf
    exact (ih v hf).bind fun a a' ha => node v _ hf ha
  | arrayLength i e ih =>
    intro v frames frames' hf
    exact (ih v hf).bind fun a a' ha => node v _ hf ha
  | destruct i e d c f ih =>
    intro v frames frames' hf
    exact (ih v hf).bind fun a a' ha => node v _ hf ha
  | isCtor i e d c ih => intro v frames frames' hf; exact ih v hf
  | fresh i e ih => intro v frames frames' hf; exact ih v hf
  | unary i op e ih => intro v frames frames' hf; exact ih v hf
  | old i e ih => intro v frames frames' hf; exact ih v.old hf
  | index i a b iha ihb =>
    intro v frames frames' hf
    exact (iha v hf).bind fun x x' hx => (ihb v hf).bind fun y y' hy =>
      node v _ hf (by simp [hx, hy])
  | slice i e lo hi ih ihlo ihhi =>
    intro v frames frames' hf
    exact (ih v hf).bind fun x x' hx => (check?_alike v ihlo hf).bind fun y y' hy =>
      (check?_alike v ihhi hf).bind fun z z' hz => node v _ hf (by simp [hx, hy, hz])
  | update i a b c iha ihb ihc =>
    intro v frames frames' hf
    exact (iha v hf).bind fun x x' hx => (ihb v hf).bind fun y y' hy =>
      (ihc v hf).bind fun z z' hz => node v _ hf (by simp [hx, hy, hz])
  | display i kind es ih => intro v frames frames' hf; exact checkList_alike v ih hf
  | mapDisplay i es ih => intro v frames frames' hf; exact checkEntries_alike v ih hf
  | ctor i d c es ih =>
    intro v frames frames' hf
    exact (checkList_alike v ih hf).bind fun a a' ha => node v _ hf ha
  | binary i op a b iha ihb =>
    intro v frames frames' hf
    refine (iha v hf).bind fun x x' hx => ?_
    cases op
    case and | implies =>
      refine (lowerExpr_alike a v).bind fun t t' ht => ?_
      exact (ihb v (cons_guard_alike ht hf)).bind fun y y' hy => .pure (by simp [hx, hy])
    case or =>
      refine (lowerExpr_alike a v).bind fun t t' ht => ?_
      exact (ihb v (cons_guard_alike (by simp [ht]) hf)).bind fun y y' hy => .pure (by simp [hx, hy])
    all_goals exact (ihb v hf).bind fun y y' hy => node v _ hf (by simp [hx, hy])
  | quant i q bs r b ts ind ihr ihb iht =>
    intro v frames frames' hf
    unfold check
    refine (Frame.ofBinders_alike v bs).bind fun f f' hff => ?_
    have hf' := cons_alike hff hf
    cases r with
    | none => exact ihb v hf'
    | some r =>
      refine (ihr r rfl v hf').bind fun x x' hx => (lowerExpr_alike r v).bind fun t t' ht => ?_
      exact (ihb v (cons_guard_alike ht hf')).bind fun y y' hy => .pure (by simp [hx, hy])
  | setComp i bs r t ihr iht =>
    intro v frames frames' hf
    unfold check
    refine (Frame.ofBinders_alike v bs).bind fun f f' hff => ?_
    have hf' := cons_alike hff hf
    refine (ihr v hf').bind fun x x' hx => ?_
    cases t with
    | none => exact .pure hx
    | some t =>
      refine (lowerExpr_alike r v).bind fun c c' hc => ?_
      exact (iht t rfl v (cons_guard_alike hc hf')).bind fun y y' hy => .pure (by simp [hx, hy])
  | mapComp i b r t ihr iht =>
    intro v frames frames' hf
    refine (Frame.ofBinders_alike v [b]).bind fun f f' hff => ?_
    have hf' := cons_alike hff hf
    refine (ihr v hf').bind fun x x' hx => (lowerExpr_alike r v).bind fun c c' hc => ?_
    exact (iht v (cons_guard_alike hc hf')).bind fun y y' hy => .pure (by simp [hx, hy])
  | letIn i bs b ihbs ihb =>
    intro v frames frames' hf
    refine (checkBindings_alike v ihbs hf).bind fun x x' hx => ?_
    refine (lowerBindings_alike v fun b _ => lowerExpr_alike b.2).bind fun as as' has => ?_
    exact (ihb v (cons_bind_alike has hf)).bind fun y y' hy => .pure (by simp [hx, hy])
  | ite i c a b ihc iha ihb =>
    intro v frames frames' hf
    refine (ihc v hf).bind fun x x' hx => (lowerExpr_alike c v).bind fun t t' ht => ?_
    refine (iha v (cons_guard_alike ht hf)).bind fun y y' hy => ?_
    exact (ihb v (cons_guard_alike (by simp [ht]) hf)).bind fun z z' hz =>
      .pure (by simp [hx, hy, hz])
  | cases i e arms ihe iharms =>
    intro v frames frames' hf
    refine (ihe v hf).bind fun x x' hx => (matchedDatatype_alike e.typ).bind_id fun dt => ?_
    refine (lowerExpr_alike e v).bind fun s s' hs => (Alike.datatype dt).bind_id fun d => ?_
    refine Alike.options.bind fun o o' _ => ?_
    refine Alike.bind (Alike.mapM (k := List.map Stmt.erase) fun c _ => ?_) fun ys ys' hys =>
      .pure (by simp [hx, hys])
    have test : (IL.Expr.app (Naming.isCtor dt c.name) [s]).erase =
        (IL.Expr.app (Naming.isCtor dt c.name) [s']).erase := by simp [hs]
    have hf' := cons_guard_alike test hf
    rw [checkArms_eq, checkArms_eq, List.find?_map, List.find?_map]
    cases hfind : arms.find? (·.1.ctor == c.name) with
    | none =>
      simp only [Function.comp_def, hfind, Option.map_none]
      exact .pure (by rw [map_erase_assertUnder, map_erase_assertUnder, hf'])
    | some p =>
      simp only [Function.comp_def, hfind, Option.map_some]
      refine (caseBindings_alike d dt p.1 hs).bind fun bs bs' hbs => ?_
      exact iharms p (List.mem_of_find?_eq_some hfind) v (cons_bind_alike hbs hf')
  | call i f r es ihr ihes =>
    intro v frames frames' hf
    exact (check?_alike v ihr hf).bind fun x x' hx => (checkList_alike v ihes hf).bind
      fun y y' hy => node v _ hf (by simp [hx, hy])

end Checks

theorem definedness_alike (v : View) {limits limits' : Limits}
    (hl : limits.erase = limits'.erase) (e : Source.Expr) :
    Alike (List.map Stmt.erase) (definedness v limits e) (definedness v limits' e) :=
  check_alike hl e v rfl

theorem definednessOfAll_alike (v : View) (limits : Limits) (es : List Source.Expr) :
    Alike (List.map Stmt.erase) (definednessOfAll v limits es) (definednessOfAll v limits es) :=
  checkList_alike v (fun e _ => check_alike rfl e) rfl

/-! ## Checks as formulas -/

theorem map_erase_filter_isTrue (es : List IL.Expr) :
    (es.filter fun e => !e.isTrue).map IL.Expr.erase =
      (es.map IL.Expr.erase).filter fun e => !e.isTrue := by
  rw [List.filter_map]
  simp [Function.comp_def]

theorem collectNode_alike (kind : Collected) (v : View) (e : Source.Expr) :
    Alike (List.map IL.Expr.erase) (collectNode kind v e) (collectNode kind v e) := by
  cases kind with
  | obligations =>
    refine (nodeObligations_alike v rfl e).bind fun os os' hos => .pure ?_
    have hconds := congrArg (List.map Obligation.cond) hos
    rw [List.map_map, List.map_map] at hconds
    rw [map_erase_filter_isTrue, map_erase_filter_isTrue, List.map_map, List.map_map]
    exact congrArg _ hconds
  | facts =>
    refine (canCallFact?_alike v e).bind fun o o' ho => .pure ?_
    rw [map_erase_filter_isTrue, map_erase_filter_isTrue]
    cases o <;> cases o' <;> simp at ho <;> simp [ho]

/-- The formulas of an expression are the same whether or not triggers are chosen. -/
def CollectsAlike (kind : Collected) (e : Source.Expr) : Prop :=
  ∀ v : View, Alike (List.map IL.Expr.erase) (collect kind v e) (collect kind v e)

section Collects

variable {kind : Collected}

theorem collect?_alike (v : View) {o : Option Source.Expr} (h : ∀ e ∈ o, CollectsAlike kind e) :
    Alike (List.map IL.Expr.erase) (collect? kind v o) (collect? kind v o) := by
  cases o with
  | none => exact .pure rfl
  | some e => exact h e rfl v

theorem collectList_alike (v : View) {es : List Source.Expr} (h : ∀ e ∈ es, CollectsAlike kind e) :
    Alike (List.map IL.Expr.erase) (collectList kind v es) (collectList kind v es) := by
  induction es with
  | nil => exact .pure rfl
  | cons e es ih =>
    refine (h e (by simp) v).bind fun a a' ha => ?_
    exact (ih fun e he => h e (by simp [he])).bind fun b b' hb => .pure (by simp [ha, hb])

theorem collectEntries_alike (v : View) {es : List (Source.Expr × Source.Expr)}
    (h : ∀ e ∈ es, CollectsAlike kind e.1 ∧ CollectsAlike kind e.2) :
    Alike (List.map IL.Expr.erase) (collectEntries kind v es) (collectEntries kind v es) := by
  induction es with
  | nil => exact .pure rfl
  | cons e es ih =>
    obtain ⟨hk, he⟩ := h e (by simp)
    refine (hk v).bind fun a a' ha => (he v).bind fun b b' hb => ?_
    exact (ih fun e he => h e (by simp [he])).bind fun c c' hc => .pure (by simp [ha, hb, hc])

theorem collectBindings_alike (v : View) {bs : List (String × Source.Expr)}
    (h : ∀ b ∈ bs, CollectsAlike kind b.2) :
    Alike (List.map IL.Expr.erase) (collectBindings kind v bs) (collectBindings kind v bs) := by
  induction bs with
  | nil => exact .pure rfl
  | cons b bs ih =>
    refine (h b (by simp) v).bind fun a a' ha => ?_
    exact (ih fun b hb => h b (by simp [hb])).bind fun c c' hc => .pure (by simp [ha, hc])

/-- Alike formulas under alike frames. -/
theorem under_alike (auto auto' : Bool) {f f' : Frame} (hf : f.erase = f'.erase)
    {es es' : List IL.Expr} (h : es.map IL.Expr.erase = es'.map IL.Expr.erase) :
    (f.under auto es).map IL.Expr.erase = (f'.under auto' es').map IL.Expr.erase := by
  rw [Frame.map_erase_under, Frame.map_erase_under, hf, h]

theorem under_guard_alike (auto auto' : Bool) {c c' : IL.Expr} (hc : c.erase = c'.erase)
    {es es' : List IL.Expr} (h : es.map IL.Expr.erase = es'.map IL.Expr.erase) :
    ((Frame.guard c).under auto es).map IL.Expr.erase =
      ((Frame.guard c').under auto' es').map IL.Expr.erase :=
  under_alike auto auto' (Frame.guard_erase hc) h

theorem collect_alike (kind : Collected) (e : Source.Expr) : CollectsAlike kind e := by
  have node (v : View) (e : Source.Expr) {a a' : List IL.Expr}
      (ha : a.map IL.Expr.erase = a'.map IL.Expr.erase) :
      Alike (List.map IL.Expr.erase) (collectNode kind v e >>= fun b => pure (a ++ b))
        (collectNode kind v e >>= fun b => pure (a' ++ b)) :=
    (collectNode_alike kind v e).bind fun b b' hb => .pure (by simp [ha, hb])
  induction e using Source.Expr.recData with
  | bool | int | null | var | this => intro v; exact .pure rfl
  | field i e f ih => intro v; exact (ih v).bind fun a a' ha => node v _ ha
  | arrayLength i e ih => intro v; exact (ih v).bind fun a a' ha => node v _ ha
  | destruct i e d c f ih => intro v; exact (ih v).bind fun a a' ha => node v _ ha
  | isCtor i e d c ih => intro v; exact ih v
  | fresh i e ih => intro v; exact ih v
  | unary i op e ih => intro v; exact ih v
  | old i e ih => intro v; exact ih v.old
  | index i a b iha ihb =>
    intro v
    exact (iha v).bind fun x x' hx => (ihb v).bind fun y y' hy => node v _ (by simp [hx, hy])
  | slice i e lo hi ih ihlo ihhi =>
    intro v
    exact (ih v).bind fun x x' hx => (collect?_alike v ihlo).bind fun y y' hy =>
      (collect?_alike v ihhi).bind fun z z' hz => node v _ (by simp [hx, hy, hz])
  | update i a b c iha ihb ihc =>
    intro v
    exact (iha v).bind fun x x' hx => (ihb v).bind fun y y' hy => (ihc v).bind fun z z' hz =>
      node v _ (by simp [hx, hy, hz])
  | display i kind es ih => intro v; exact collectList_alike v ih
  | mapDisplay i es ih => intro v; exact collectEntries_alike v ih
  | ctor i d c es ih =>
    intro v
    exact (collectList_alike v ih).bind fun a a' ha => node v _ ha
  | binary i op a b iha ihb =>
    intro v
    cases op
    case and | implies =>
      refine Alike.options.bind fun o o' _ => (lowerExpr_alike a v).bind fun t t' ht => ?_
      refine (iha v).bind fun x x' hx => (ihb v).bind fun y y' hy => .pure ?_
      simp only [List.map_append, hx]
      exact congrArg _ (under_guard_alike _ _ ht hy)
    case or =>
      refine Alike.options.bind fun o o' _ => (lowerExpr_alike a v).bind fun t t' ht => ?_
      refine (iha v).bind fun x x' hx => (ihb v).bind fun y y' hy => .pure ?_
      simp only [List.map_append, hx]
      exact congrArg _ (under_guard_alike _ _ (by simp [ht]) hy)
    all_goals
      exact (iha v).bind fun x x' hx => (ihb v).bind fun y y' hy => node v _ (by simp [hx, hy])
  | quant i q bs r b ts ind ihr ihb iht =>
    intro v
    unfold collect
    refine Alike.options.bind fun o o' _ => ?_
    cases r with
    | none =>
      refine (ihb v).bind fun y y' hy => (Frame.ofBinders_alike v bs).bind fun f f' hf => ?_
      exact .pure (under_alike _ _ hf hy)
    | some r =>
      refine (ihr r rfl v).bind fun x x' hx => (lowerExpr_alike r v).bind fun t t' ht => ?_
      refine (ihb v).bind fun y y' hy => (Frame.ofBinders_alike v bs).bind fun f f' hf => ?_
      refine .pure (under_alike _ _ hf ?_)
      simp only [List.map_append, hx]
      exact congrArg _ (under_guard_alike _ _ ht hy)
  | setComp i bs r t ihr iht =>
    intro v
    unfold collect
    refine Alike.options.bind fun o o' _ => (ihr v).bind fun x x' hx => ?_
    cases t with
    | none => exact (Frame.ofBinders_alike v bs).bind fun f f' hf => .pure (under_alike _ _ hf hx)
    | some t =>
      refine (lowerExpr_alike r v).bind fun c c' hc => (iht t rfl v).bind fun y y' hy => ?_
      refine (Frame.ofBinders_alike v bs).bind fun f f' hf => .pure (under_alike _ _ hf ?_)
      simp only [List.map_append, hx]
      exact congrArg _ (under_guard_alike _ _ hc hy)
  | mapComp i b r t ihr iht =>
    intro v
    refine Alike.options.bind fun o o' _ => (ihr v).bind fun x x' hx => ?_
    refine (lowerExpr_alike r v).bind fun c c' hc => (iht v).bind fun y y' hy => ?_
    refine (Frame.ofBinders_alike v [b]).bind fun f f' hf => .pure (under_alike _ _ hf ?_)
    simp only [List.map_append, hx]
    exact congrArg _ (under_guard_alike _ _ hc hy)
  | letIn i bs b ihbs ihb =>
    intro v
    refine Alike.options.bind fun o o' _ => (collectBindings_alike v ihbs).bind fun x x' hx => ?_
    refine (lowerBindings_alike v fun b _ => lowerExpr_alike b.2).bind fun as as' has => ?_
    refine (ihb v).bind fun y y' hy => .pure ?_
    simp only [List.map_append, hx]
    exact congrArg _ (under_alike _ _ (Frame.bind_erase has) hy)
  | ite i c a b ihc iha ihb =>
    intro v
    refine Alike.options.bind fun o o' _ => (lowerExpr_alike c v).bind fun t t' ht => ?_
    refine (ihc v).bind fun x x' hx => (iha v).bind fun y y' hy => (ihb v).bind fun z z' hz => ?_
    refine .pure ?_
    simp only [List.map_append, hx]
    have hneg : t.neg.erase = t'.neg.erase := by simp [ht]
    rw [under_guard_alike o.autoTriggers o'.autoTriggers ht hy,
      under_guard_alike o.autoTriggers o'.autoTriggers hneg hz]
  | cases i e arms ihe iharms =>
    intro v
    refine Alike.options.bind fun o o' _ => (matchedDatatype_alike e.typ).bind_id fun dt => ?_
    refine (lowerExpr_alike e v).bind fun s s' hs => (ihe v).bind fun x x' hx => ?_
    refine (Alike.datatype dt).bind_id fun d => ?_
    refine Alike.bind (Alike.mapM (k := List.map IL.Expr.erase) fun c _ => ?_) fun ys ys' hys =>
      .pure (by simp [hx, hys])
    have test : (IL.Expr.app (Naming.isCtor dt c.name) [s]).erase =
        (IL.Expr.app (Naming.isCtor dt c.name) [s']).erase := by simp [hs]
    rw [collectArms_eq, List.find?_map]
    cases hfind : arms.find? (·.1.ctor == c.name) with
    | none =>
      simp only [Function.comp_def, hfind, Option.map_none]
      exact .pure (under_guard_alike _ _ test rfl)
    | some p =>
      simp only [Function.comp_def, hfind, Option.map_some]
      refine (caseBindings_alike d dt p.1 hs).bind fun bs bs' hbs => ?_
      refine (iharms p (List.mem_of_find?_eq_some hfind) v).bind fun y y' hy => ?_
      exact .pure (under_guard_alike _ _ test (under_alike _ _ (Frame.bind_erase hbs) hy))
  | call i f r es ihr ihes =>
    intro v
    exact (collect?_alike v ihr).bind fun x x' hx => (collectList_alike v ihes).bind
      fun y y' hy => node v _ (by simp [hx, hy])

end Collects

theorem canCall_alike (v : View) (e : Source.Expr) :
    Alike IL.Expr.erase (canCall v e) (canCall v e) :=
  (collect_alike .facts e v).bind fun es es' hes => .pure (by simp [hes])

end ContractLowering
