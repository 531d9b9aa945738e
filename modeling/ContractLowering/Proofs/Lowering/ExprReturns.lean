import ContractLowering.Lowering.Obligation
import ContractLowering.Proofs.Lowering.Returns

/-!
# What the lowering of an expression returns

One equation per construct whose lowering branches between its steps. The others open by
`ExprM.returns_bind` alone.
-/

namespace ContractLowering

open IL Source

variable {env : Env} {v : View}

/-- The receiver among the arguments of a call: there is one if the callee belongs to a class. -/
def receiverArgs (v : View) (owner : Option Path) (receiver : Option Source.Expr) :
    ExprM (List IL.Expr) :=
  match owner with
  | none => pure []
  | some _ => lowerReceiver v receiver

/-- The heap among the arguments of a call: it is there if the callee reads it. -/
def heapArgs (v : View) (callee : Function) : List IL.Expr :=
  if callee.reads.isEmpty then [] else [v.heap]

theorem returns_lowerCallArgs {f : Path} {receiver : Option Source.Expr} {args : List Source.Expr}
    {es : List IL.Expr} :
    (lowerCallArgs v f receiver args).Returns env es ↔
      ∃ callee, env.context.function f = .ok callee ∧
        ∃ recv, (receiverArgs v callee.owner receiver).Returns env recv ∧
          ∃ rest, (lowerArgs v callee.params args).Returns env rest ∧
            es = heapArgs v callee ++ recv ++ rest := by
  simp only [lowerCallArgs, ExprM.returns_bind, ExprM.returns_function]
  refine exists_congr fun callee => and_congr_right fun _ => ?_
  cases h : callee.owner <;>
    simp [receiverArgs, heapArgs, ExprM.returns_bind]

theorem returns_calleeBindings {owner : Option Path} {params : List Source.Binder}
    {receiver : Option Source.Expr} {args : List Source.Expr} {bs : List (String × IL.Expr)} :
    (Obligation.calleeBindings v owner params receiver args).Returns env bs ↔
      ∃ recv, (receiverArgs v owner receiver).Returns env recv ∧
        ∃ rest, (lowerArgs v params args).Returns env rest ∧
          bs = recv.map (Naming.this, ·) ++ (params.map (·.1)).zip rest := by
  cases owner <;> simp [Obligation.calleeBindings, receiverArgs]

/-- That the receiver of a call is there, if one is given. -/
def receiverObligations (v : View) : Option Source.Expr → ExprM (List Obligation)
  | none => pure []
  | some r => Obligation.nonNull v r

/-- That a call stays below the entry of the enclosing member, if there is one. -/
def descentObligations (v : View) (entry : Option Termination.Entry) (callee : Function) (f : Path)
    (bindings : List (String × IL.Expr)) (span : Span) : ExprM (List Obligation) :=
  match entry with
  | none => pure []
  | some entry => do
    let measure := Measure.ofMember callee.decreases callee.span callee.params
    let checks ← Termination.callChecks { v with this := none } entry f measure bindings span
    pure (checks.map fun c => (⟨c.1, c.2⟩ : Obligation))

theorem returns_ofCall {limits : Limits} {span : Span} {f : Path} {receiver : Option Source.Expr}
    {args : List Source.Expr} {os : List Obligation} :
    (Obligation.ofCall v limits span f receiver args).Returns env os ↔
      ∃ callee, env.context.function f = .ok callee ∧
        ∃ there, (receiverObligations v receiver).Returns env there ∧
        ∃ nats, (Obligation.natArgs v args callee.params).Returns env nats ∧
        ∃ bs, (Obligation.calleeBindings v callee.owner callee.params receiver args).Returns env
          bs ∧
        ∃ pre, (Obligation.preconditions { v with this := none } span bs callee.requires).Returns
          env pre ∧
        ∃ reads, (Obligation.readsIncluded v { v with this := none } span bs callee.reads
          limits.reads).Returns env reads ∧
        ∃ down, (descentObligations v limits.termination callee f bs span).Returns env down ∧
          os = there ++ nats ++ pre ++ reads ++ down := by
  obtain ⟨reads, termination⟩ := limits
  cases receiver <;> cases termination <;>
    simp [Obligation.ofCall, receiverObligations, descentObligations]

theorem lowerExpr_call (i : Info) (f : Path) (receiver : Option Source.Expr)
    (args : List Source.Expr) : lowerExpr v (.call i f receiver args) =
      ExprM.function f >>= fun callee => callLayer v f >>= fun layer =>
        receiverArgs v callee.owner receiver >>= fun recv =>
        lowerArgs v callee.params args >>= fun rest =>
        pure (Boxing.convert callee.result.2 i.typ
          (.app (Naming.layered f layer) (heapArgs v callee ++ recv ++ rest))) := by
  rw [lowerExpr]
  refine congrArg _ (funext fun callee => congrArg _ (funext fun layer => ?_))
  cases callee.owner <;> rfl

theorem returns_lowerExpr_call {i : Info} {f : Path} {receiver : Option Source.Expr}
    {args : List Source.Expr} {e : IL.Expr} :
    (lowerExpr v (.call i f receiver args)).Returns env e ↔
      ∃ callee, env.context.function f = .ok callee ∧
        ∃ layer, (callLayer v f).Returns env layer ∧
          ∃ recv, (receiverArgs v callee.owner receiver).Returns env recv ∧
            ∃ rest, (lowerArgs v callee.params args).Returns env rest ∧
              e = Boxing.convert callee.result.2 i.typ
                (.app (Naming.layered f layer) (heapArgs v callee ++ recv ++ rest)) := by
  simp only [lowerExpr_call, ExprM.returns_bind, ExprM.returns_function, ExprM.returns_pure]

/-- The matrix of a quantifier: the where clauses, the range and the body. -/
def quantMatrix (q : Source.Quantifier) (wheres : IL.Expr) (range : Option IL.Expr)
    (body : IL.Expr) : IL.Expr :=
  match q with
  | .all => .imp (.conj [wheres, range.getD .tt]) body
  | .ex => .conj [wheres, range.getD .tt, body]

/-- The quantifier of the target for one of the source. -/
def targetQuantifier : Source.Quantifier → IL.Quantifier
  | .all => .all
  | .ex => .ex

/-- The triggers of a quantifier: those given, or chosen ones where none are. -/
def chosenTriggers (v : View) (bound : List String) (triggers : List (List Source.Expr))
    (matrix : IL.Expr) : ExprM (List Trigger) :=
  if triggers.isEmpty then autoTriggers bound matrix else lowerTriggers v triggers

theorem returns_lowerExpr_quant {i : Info} {q : Source.Quantifier} {bs : List Source.Binder}
    {r : Option Source.Expr} {b : Source.Expr} {ts : List (List Source.Expr)} {ind : Induction}
    {e : IL.Expr} :
    (lowerExpr v (.quant i q bs r b ts ind)).Returns env e ↔
      ∃ wheres, (bindersWhere v.heap bs).Returns env wheres ∧
        ∃ range, (lowerExpr? v r).Returns env range ∧
        ∃ body, (lowerExpr v b).Returns env body ∧
        ∃ chosen, (chosenTriggers v (bs.map (·.1)) ts (quantMatrix q wheres range body)).Returns
          env chosen ∧
          e = .quantify (targetQuantifier q) (sortBinders bs) chosen
            (quantMatrix q wheres range body) := by
  cases q <;> cases ts <;>
    simp [lowerExpr, quantMatrix, targetQuantifier, chosenTriggers]

@[simp] theorem sortBinders_names (bs : List Source.Binder) :
    (sortBinders bs).map (·.1) = bs.map (·.1) := by
  simp [sortBinders]

/-- The predicate of a set comprehension, over the box that `Naming.boxVar` stands for. -/
def setPredicate (v : View) (i : Info) (bs : List Source.Binder) (term : Option Source.Expr)
    (wheres range : IL.Expr) : ExprM IL.Expr :=
  match bs, collectsBinder ((bs.headD default).1) term with
  | [b], true => pure (letUnboxed b (.conj [wheres, range]))
  | _, _ => match term with
    | none => ExprM.broken .setComprehensionWithoutTerm
    | some t => do
      let elem ← elemTyp i.typ
      let x ← lowerExpr v t
      exAuto (sortBinders bs) (.conj [wheres, range,
        .eq (.var Naming.boxVar) (Boxing.box elem (Boxing.convert t.typ elem x))])

theorem lowerExpr_setComp (i : Info) (bs : List Source.Binder) (r : Source.Expr)
    (t : Option Source.Expr) : lowerExpr v (.setComp i bs r t) =
      bindersWhere v.heap bs >>= fun wheres => lowerExpr v r >>= fun range =>
        setPredicate v i bs t wheres range >>= fun p =>
        pure (Prelude.setFromPredicate (boxLambda p)) := by
  rcases bs with _ | ⟨b, _ | ⟨c, bs⟩⟩ <;> rcases t with _ | t
  · simp [lowerExpr, setPredicate]
  · simp [lowerExpr, setPredicate]
  · simp [lowerExpr, setPredicate, collectsBinder]
  · cases h : collectsBinder b.1 (some t) <;> simp [lowerExpr, setPredicate, h]
  · simp [lowerExpr, setPredicate]
  · simp [lowerExpr, setPredicate]

theorem returns_lowerExpr_setComp {i : Info} {bs : List Source.Binder} {r : Source.Expr}
    {t : Option Source.Expr} {e : IL.Expr} :
    (lowerExpr v (.setComp i bs r t)).Returns env e ↔
      ∃ wheres, (bindersWhere v.heap bs).Returns env wheres ∧
        ∃ range, (lowerExpr v r).Returns env range ∧
        ∃ p, (setPredicate v i bs t wheres range).Returns env p ∧
          e = Prelude.setFromPredicate (boxLambda p) := by
  simp only [lowerExpr_setComp, ExprM.returns_bind, ExprM.returns_pure]

theorem returns_matchedDatatype {t : Typ} {p : Path} :
    (matchedDatatype t).Returns env p ↔ ∃ args, t = .datatype p args := by
  cases t <;> simp [matchedDatatype, eq_comm]

theorem returns_lowerExpr_cases {i : Info} {e : Source.Expr} {arms : List (Pattern × Source.Expr)}
    {a : IL.Expr} :
    (lowerExpr v (.cases i e arms)).Returns env a ↔
      ∃ s, (lowerExpr v e).Returns env s ∧ ∃ dt, (matchedDatatype e.typ).Returns env dt ∧
        ∃ d, env.context.datatype dt = .ok d ∧
          (lowerArms v d dt s i.typ arms).Returns env (some a) := by
  simp only [lowerExpr, ExprM.returns_bind, ExprM.returns_datatype]
  refine exists_congr fun s => and_congr_right fun _ => exists_congr fun dt =>
    and_congr_right fun _ => exists_congr fun d => and_congr_right fun _ => ?_
  constructor
  · rintro ⟨o, ho, ha⟩
    cases o with
    | none => simp at ha
    | some c => simp only [ExprM.returns_pure] at ha; exact ha ▸ ho
  · exact fun h => ⟨some a, h, by simp⟩

/-- Every call has a variant to refer to. -/
theorem callLayer_returns (f : Path) : ∃ layer, (callLayer v f).Returns env layer := by
  simp only [callLayer, ExprM.returns_bind, ExprM.returns_isRecursive, exists_eq_left]
  split
  · exact ⟨.normal, by simp⟩
  · simp only [ExprM.returns_bind, ExprM.returns_env, exists_eq_left]
    cases env.member <;> cases v.layer <;> simp

end ContractLowering
