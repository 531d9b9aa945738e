import ContractLowering.Proofs.CallGraph
import ContractLowering.Proofs.Context
import ContractLowering.Proofs.Lowering.Split
import ContractLowering.Proofs.Source.CallsAfterSubst
import Mathlib.Algebra.Order.BigOperators.Group.List
import Mathlib.Data.Finset.Card

/-!
# Opening predicates comes to an end

The splitter opens calls of predicates inside the bodies of predicates that it has opened, and only
the height, which recursive predicates use up, bounds it. So what has to be shown is that predicates
that are not recursive cannot be opened inside each other forever, although an opened body may be
larger than the call and may hold the arguments, with their calls, several times.

`Within n e` says that from `e` at most `n` of them are opened in a row. A call in an opened body
is a call of the body's own, and those are further down the call graph (`rank_lt`), or it came in
with an argument, and arguments are smaller than the call (`within_subst`). That is enough fuel for
the splitter never to feel the bound (`within_openingBound`).

`splitting_terminates`: the recursion of the splitter is well-founded, and the splitter does what
that recursion says without any bound.
-/

namespace ContractLowering

open IL Source

/-! ## Sizes of expressions -/

namespace Source.Expr

variable {e d : Expr}

theorem mem_subexprs_trans {a : Expr} (ha : a ∈ d.subexprs) (hd : d ∈ e.subexprs) :
    a ∈ e.subexprs := by
  induction e using recParts with | h e ih => ?_
  rcases mem_subexprs.1 hd with rfl | ⟨p, hp, hd⟩
  · exact ha
  · exact mem_subexprs_part hp (ih p hp hd)

theorem length_subexprs? (o : Option Expr) :
    (subexprs? o).length = (o.toList.map (·.size)).sum := by
  cases o <;> simp [subexprs?, size]

theorem length_subexprsList (es : List Expr) : (subexprsList es).length = (es.map (·.size)).sum := by
  induction es with
  | nil => rfl
  | cons e es ih => simp [subexprsList, size, ih]

theorem length_subexprsEntries (kvs : List (Expr × Expr)) :
    (subexprsEntries kvs).length = (kvs.map (·.1.size)).sum + (kvs.map (·.2.size)).sum := by
  induction kvs with
  | nil => rfl
  | cons kv kvs ih =>
    simp only [subexprsEntries, List.length_append, ih, List.map_cons, List.sum_cons, size]
    omega

theorem length_subexprsBindings (bs : List (String × Expr)) :
    (subexprsBindings bs).length = (bs.map (·.2.size)).sum := by
  induction bs with
  | nil => rfl
  | cons b bs ih => simp [subexprsBindings, size, ih]

theorem length_subexprsArms (arms : List (Pattern × Expr)) :
    (subexprsArms arms).length = (arms.map (·.2.size)).sum := by
  induction arms with
  | nil => rfl
  | cons arm arms ih => simp [subexprsArms, size, ih]

theorem length_subexprsTriggers (ts : List (List Expr)) :
    (subexprsTriggers ts).length = (ts.flatten.map (·.size)).sum := by
  induction ts with
  | nil => rfl
  | cons t ts ih => simp [subexprsTriggers, length_subexprsList, ih]
/-- An expression is larger than its parts together. -/
theorem size_eq (e : Expr) : e.size = 1 + (e.parts.map (·.2.size)).sum := by
  have hsize (d : Expr) : d.subexprs.length = d.size := rfl
  rw [← hsize e]
  cases e <;>
    simp only [subexprs, parts, hsize, List.length_cons, List.length_append, List.length_nil,
      List.map_cons, List.map_nil, List.map_append, List.sum_cons, List.sum_nil, List.sum_append,
      List.map_map, Function.comp_def, length_subexprs?, length_subexprsList,
      length_subexprsEntries, length_subexprsBindings, length_subexprsArms,
      length_subexprsTriggers] <;> omega

theorem size_lt_of_part {p : List String × Expr} (hp : p ∈ e.parts) : p.2.size < e.size := by
  have := List.le_sum_of_mem (List.mem_map_of_mem (f := (·.2.size)) hp)
  rw [size_eq e]
  omega

theorem size_le_of_mem (hd : d ∈ e.subexprs) : d.size ≤ e.size := by
  induction e using recParts with | h e ih => ?_
  rcases mem_subexprs.1 hd with rfl | ⟨p, hp, hd⟩
  · exact Nat.le_refl _
  · exact Nat.le_trans (ih p hp hd) (Nat.le_of_lt (size_lt_of_part hp))

theorem size_pos (e : Expr) : 0 < e.size := by
  rw [size_eq e]
  omega

end Source.Expr

/-! ## The recursion of the splitter -/

/-- The receiver and the arguments of a call, for the receiver and the parameters of the callee. -/
def Source.Function.passing (callee : Function) (receiver : Option Source.Expr)
    (args : List Source.Expr) : Subst :=
  .ofBindings (if callee.owner.isSome then receiver else none)
    ((callee.params.map (·.1)).zip args)

/-- What a call of a predicate is replaced by: the body at the receiver and the arguments. -/
def Context.Unfolds (c : Context) (f : Path) (receiver : Option Source.Expr)
    (args : List Source.Expr) (body : Source.Expr) : Prop :=
  ∃ callee b, c.function f = .ok callee ∧ callee.body = some b ∧
    body = b.subst (callee.passing receiver args)

/-- The call of a predicate that is not recursive, and the body it is replaced by. -/
def Context.OpensOnce (c : Context) (call body : Source.Expr) : Prop :=
  ∃ i f receiver args, call = .call i f receiver args ∧ c.calls.isRecursive f = false ∧
    c.Unfolds f receiver args body

namespace Splitter

/-- The goals that a goal is split into where it stands. -/
def subgoals : Source.Expr → List Source.Expr
  | .binary _ .and a b => [a, b]
  | .binary _ .implies _ b | .binary _ .or _ b => [b]
  | .ite _ _ a b => [a, b]
  | .letIn _ _ body => [body]
  | .quant _ .all _ _ body _ _ => [body]
  | _ => []

/-- `Opens c y x`: the goal of `x` is a call that the splitter may replace by the goal of `y`. A
recursive predicate is opened at a lower height, others keep the height. -/
inductive Opens (c : Context) : Nat × Source.Expr → Nat × Source.Expr → Prop where
  | recursive {h i f receiver args body} (hrec : c.calls.isRecursive f = true)
      (hbody : c.Unfolds f receiver args body) : Opens c (h, body) (h + 1, .call i f receiver args)
  | once {h g body} (hbody : c.OpensOnce g body) : Opens c (h + 1, body) (h + 1, g)

/-- `Next c y x`: splitting the goal of `x` at its height, the splitter may split the goal of `y` at
the height of `y`. -/
inductive Next (c : Context) : Nat × Source.Expr → Nat × Source.Expr → Prop where
  | subgoal {h g g'} (hsub : g' ∈ subgoals g) : Next c (h, g') (h, g)
  | opened {x y} (hopens : Opens c y x) : Next c y x

/-- One round of the splitter. Other rounds split the subgoals (`sub`), and the bodies of opened
predicates (`opened`), which are given with the height that is left for them and what they lower
to. -/
def splitWith (v : View) (height : Nat) (induct : Bool)
    (sub : Source.Expr → DeclM (List GoalPart))
    (opened : Nat → IL.Expr → Source.Expr → DeclM (List GoalPart)) (goal : Source.Expr) :
    DeclM (List GoalPart) :=
  match goal with
  | .binary _ .and a b => do
    let first ← sub a
    let second ← sub b
    return first ++ second
  | .binary _ .implies a b => do
    let hyp ← lowerExpr v a
    let parts ← sub b
    return GoalPart.wrapAll (.imp hyp) parts
  | .binary _ .or a b => do
    let hyp ← lowerExpr v a
    let parts ← sub b
    return GoalPart.wrapAll (.imp hyp.neg) parts
  | .ite _ c a b => do
    let test ← lowerExpr v c
    let thn ← sub a
    let els ← sub b
    return GoalPart.wrapAll (.imp test) thn ++ GoalPart.wrapAll (.imp test.neg) els
  | .letIn _ bindings body => do
    let values ← lowerBindings v bindings
    let parts ← sub body
    return GoalPart.wrapAll (.lets values) parts
  | .quant i .all binders range body triggers attr => do
    let wheres ← bindersWhere v.heap binders
    let r ← lowerExpr? v range
    let hyp := IL.Expr.conj (wheres :: r.toList)
    let auto := (← DeclM.context).options.autoTriggers && triggers.isEmpty
    let given ← lowerTriggers v triggers
    let vars ← if induct then inductionVars attr binders (body :: range.toList) else pure []
    if vars.isEmpty then
      let parts ← sub body
      return GoalPart.wrapAll (fun p =>
        let matrix := .imp hyp p
        let chosen := if auto then Triggers.select (binders.map (·.1)) matrix else given
        .all (sortBinders binders) chosen matrix) parts
    else
      let obligations ← quantifierObligations v i.span binders vars range body
      let whole ← lowerExpr v (.quant i .all binders range body triggers attr)
      return obligations.map (⟨.checked, ·, i.span⟩) ++ [⟨.free, whole, i.span⟩]
  | .call i f receiver args =>
    match height with
    | 0 => return [⟨.both, ← lowerExpr v (.call i f receiver args), i.span⟩]
    | lower + 1 => do
      let callee ← ExprM.function f
      let call ← lowerExpr v (.call i f receiver args)
      match ← openedBody? callee receiver args with
      | none => return [⟨.both, call, i.span⟩]
      | some body => do
        let values ← lowerCallArgs v f receiver args
        let unfolded ← lowerExpr v body
        let inner ←
          if ← ExprM.isRecursive f then opened lower unfolded body
          else opened (lower + 1) unfolded body
        let canCall := IL.Expr.app (Naming.layered f .canCall) values
        return [⟨.free, call, i.span⟩, ⟨.free, .imp canCall unfolded, i.span⟩]
          ++ GoalPart.atCall i.span inner
  | other => return [⟨.both, ← lowerExpr v other, other.span⟩]

/-- The recursion of the splitter with nothing but the height to bound it: one round, in which
`rec` does what is left. -/
def splitOnce (v : View) (rec : Nat → Bool → Source.Expr → DeclM (List GoalPart)) (height : Nat)
    (induct : Bool) : Source.Expr → DeclM (List GoalPart) :=
  splitWith v height induct (rec height induct) fun h _ body => rec h false body

/-- The splitter at a height. -/
def splitAt (v : View) (height : Nat) (induct : Bool) (goal : Source.Expr) :
    DeclM (List GoalPart) := do
  splitGoal v height (openingBound (← DeclM.context) goal) induct goal

/-- What the splitter does with the body of an opened predicate, at the height left for it. -/
def openWith (v : View) (height fuel h : Nat) (unfolded : IL.Expr) (body : Source.Expr) :
    DeclM (List GoalPart) :=
  if h < height then splitAt v h false body
  else match fuel with
    | 0 => return [⟨.both, unfolded, body.span⟩]
    | less + 1 => splitGoal v h less false body

theorem openWith_lower {v : View} {height fuel : Nat} {unfolded : IL.Expr} {body : Source.Expr} :
    openWith v (height + 1) fuel height unfolded body =
      (do splitGoal v height (openingBound (← DeclM.context) body) false body) :=
  if_pos (Nat.lt_succ_self height)

theorem openWith_same {v : View} {height fuel : Nat} {unfolded : IL.Expr} {body : Source.Expr} :
    openWith v height fuel height unfolded body =
      match fuel with
      | 0 => pure [⟨.both, unfolded, body.span⟩]
      | less + 1 => splitGoal v height less false body :=
  if_neg (Nat.lt_irrefl height)

theorem splitGoal_eq (v : View) (height fuel : Nat) (induct : Bool) (goal : Source.Expr) :
    splitGoal v height fuel induct goal =
      splitWith v height induct (splitGoal v height fuel induct) (openWith v height fuel) goal := by
  rw [splitGoal.eq_def]
  cases goal with
  | binary i op a b => cases op <;> rfl
  | quant i q bs r b ts attr => cases q <;> rfl
  | call i f receiver args =>
    cases height with
    | zero => rfl
    | succ lower =>
      simp only [splitWith, openWith_lower, openWith_same]
      cases fuel <;> rfl
  | _ => rfl

end Splitter

/-! ## Computations that agree in a context -/

/-- Two computations do the same in a context, whatever was done before. -/
def DeclM.SameIn {α : Type} (c : Context) (x y : DeclM α) : Prop := ∀ s, x c s = y c s

namespace DeclM

variable {α β : Type} {c : Context}

theorem SameIn.refl (x : DeclM α) : SameIn c x x := fun _ => rfl

theorem SameIn.symm {x y : DeclM α} (h : SameIn c x y) : SameIn c y x := fun s => (h s).symm

theorem SameIn.trans {x y z : DeclM α} (h : SameIn c x y) (h' : SameIn c y z) : SameIn c x z :=
  fun s => (h s).trans (h' s)

theorem SameIn.bind {x y : DeclM α} {f g : α → DeclM β} (h : SameIn c x y)
    (hfg : ∀ a s s', x.Runs c s a s' → SameIn c (f a) (g a)) : SameIn c (x >>= f) (y >>= g) := by
  intro s
  show seq x f c s = seq y g c s
  unfold seq
  rw [← h s]
  cases hx : x c s with
  | mk r s' =>
    cases r with
    | error => rfl
    | ok a => exact hfg a s s' hx s'

/-- Only what is done after a first step differs. -/
theorem SameIn.after {x : DeclM α} {f g : α → DeclM β}
    (h : ∀ a s s', x.Runs c s a s' → SameIn c (f a) (g a)) : SameIn c (x >>= f) (x >>= g) :=
  (SameIn.refl x).bind h

end DeclM

namespace Splitter

variable {c : Context} {v : View} {height : Nat} {induct : Bool} {goal : Source.Expr}

/-- A body that may be opened is what the call unfolds to. -/
theorem unfolds_of_openedBody? {env : Env} {callee : Function} {f : Path}
    {receiver : Option Source.Expr} {args : List Source.Expr} {body : Source.Expr}
    (hf : c.function f = .ok callee)
    (h : (openedBody? callee receiver args).Returns env (some body)) :
    c.Unfolds f receiver args body := by
  unfold openedBody? at h
  simp only [ExprM.returns_bind] at h
  obtain ⟨same, -, h⟩ := h
  split at h
  · simp at h
  · split at h
    · rename_i b _ hb
      simp only [ExprM.returns_pure, Option.some.injEq] at h
      exact ⟨callee, b, hf, hb, h⟩
    · simp at h

/-- What a round of the splitter does depends on the other rounds only where it comes to them. -/
theorem splitWith_same {sub sub' : Source.Expr → DeclM (List GoalPart)}
    {opened opened' : Nat → IL.Expr → Source.Expr → DeclM (List GoalPart)}
    (hsub : ∀ g ∈ subgoals goal, DeclM.SameIn c (sub g) (sub' g))
    (hopened : ∀ h body, Opens c (h, body) (height, goal) → ∀ unfolded,
      DeclM.SameIn c (opened h unfolded body) (opened' h unfolded body)) :
    DeclM.SameIn c (splitWith v height induct sub opened goal)
      (splitWith v height induct sub' opened' goal) := by
  cases goal with
  | binary i op a b =>
    cases op with
    | and =>
      exact (hsub a (by simp [subgoals])).bind fun _ _ _ _ =>
        (hsub b (by simp [subgoals])).bind fun _ _ _ _ => .refl _
    | implies | or =>
      exact .after fun _ _ _ _ => (hsub b (by simp [subgoals])).bind fun _ _ _ _ => .refl _
    | _ => exact .refl _
  | ite i t a b =>
    exact .after fun _ _ _ _ => (hsub a (by simp [subgoals])).bind fun _ _ _ _ =>
      (hsub b (by simp [subgoals])).bind fun _ _ _ _ => .refl _
  | letIn i bs b =>
    exact .after fun _ _ _ _ => (hsub b (by simp [subgoals])).bind fun _ _ _ _ => .refl _
  | quant i q bs r b ts attr =>
    cases q with
    | all =>
      refine .after fun w _ _ _ => .after fun u _ _ _ => .after fun _ _ _ _ =>
        .after fun given _ _ _ => ?_
      have hb := hsub b (by simp [subgoals])
      cases induct with
      | false =>
        exact hb.bind fun _ _ _ _ => .refl _
      | true =>
        refine .after fun vars _ _ _ => ?_
        dsimp only
        split
        · exact hb.bind fun _ _ _ _ => .refl _
        · exact .refl _
    | ex => exact .refl _
  | call i f receiver args =>
    cases height with
    | zero => exact .refl _
    | succ lower =>
      refine .after fun callee _ _ hcallee => .after fun call _ _ _ => .after fun o _ _ ho => ?_
      cases o with
      | none => exact .refl _
      | some body =>
        have hbody : c.Unfolds f receiver args body :=
          unfolds_of_openedBody? (ExprM.returns_function.1 (hcallee.ofExpr (.function f)).1)
            (ho.ofExpr (openedBody?_stable callee receiver args)).1
        refine .after fun values _ _ _ => .after fun unfolded _ _ _ => .after fun rec _ _ hrec => ?_
        have hrec : c.calls.isRecursive f = rec :=
          (ExprM.returns_isRecursive.1 (hrec.ofExpr (.isRecursive f)).1).symm
        cases rec with
        | true =>
          exact (hopened lower body (.recursive hrec hbody) unfolded).bind fun _ _ _ _ => .refl _
        | false =>
          exact (hopened (lower + 1) body (.once ⟨i, f, receiver, args, rfl, hrec, hbody⟩)
            unfolded).bind fun _ _ _ _ => .refl _
  | _ => exact .refl _

end Splitter

/-! ## How far down the call graph a predicate is -/

namespace Context

variable {c : Context} {f g : Path}

/-- The call graph of a context is that of its members and their calls. -/
def HasCallGraph (c : Context) : Prop := c.calls = .ofCalls c.members c.callEdges

theorem hasCallGraph_ofProgram {program : Source.Program} {options : Options}
    (h : ofProgram program options = .ok c) : c.HasCallGraph := by
  obtain ⟨c₁, -, h⟩ := exists_of_bind h
  obtain ⟨c₂, -, h⟩ := exists_of_bind h
  cases h
  rfl

theorem mem_functions {callee : Function} (h : c.function f = .ok callee) :
    callee ∈ c.functions ∧ callee.name = f :=
  (mem_of_orBroken h).imp_right of_decide_eq_true

/-- The calls of the body of a function are calls of the context. -/
theorem calls_of_body {callee : Function} {b : Source.Expr} (hf : c.function f = .ok callee)
    (hb : callee.body = some b) {i : Info} {receiver : Option Source.Expr}
    {args : List Source.Expr} (hcall : .call i g receiver args ∈ b.subexprs) :
    CallGraph.Calls c.callEdges f g := by
  obtain ⟨hmem, rfl⟩ := mem_functions hf
  have hg : g ∈ b.callees := List.mem_filterMap.2 ⟨_, hcall, rfl⟩
  have hedge : (callee.name, g) ∈ callee.callEdges := by
    simp only [Function.callEdges, List.map_append, List.mem_append, List.mem_map,
      List.mem_flatMap, Prod.mk.injEq]
    exact .inl ⟨g, ⟨b, .inr (by simp [hb]), hg⟩, trivial, rfl⟩
  simp only [CallGraph.Calls, callEdges, List.mem_append, List.mem_flatMap]
  exact .inl (.inl ⟨callee, hmem, hedge⟩)

/-- The functions that a member leads to by chains of calls. -/
noncomputable def reachable (c : Context) (f : Path) : Finset Path := by
  classical
  exact ((c.functions.map (·.name)).toFinset.filter
    (Relation.TransGen (CallGraph.Calls c.callEdges) f))

theorem mem_reachable : g ∈ c.reachable f ↔
    g ∈ c.functions.map (·.name) ∧ Relation.TransGen (CallGraph.Calls c.callEdges) f g := by
  classical
  simp [reachable]

/-- How many functions a member leads to. -/
noncomputable def rank (c : Context) (f : Path) : Nat := (c.reachable f).card

theorem rank_le (c : Context) (f : Path) : c.rank f ≤ c.functions.length := by
  classical
  calc c.rank f ≤ (c.functions.map (·.name)).toFinset.card :=
        Finset.card_le_card fun g hg => List.mem_toFinset.2 (mem_reachable.1 hg).1
    _ ≤ (c.functions.map (·.name)).length := List.toFinset_card_le _
    _ = c.functions.length := List.length_map _

/-- A function that is not recursive leads to fewer functions than its callers. -/
theorem rank_lt {callee : Function} (hc : c.HasCallGraph)
    (hcall : CallGraph.Calls c.callEdges f g) (hg : c.function g = .ok callee)
    (hrec : c.calls.isRecursive g = false) : c.rank g < c.rank f := by
  have hname : g ∈ c.functions.map (·.name) :=
    List.mem_map.2 ⟨callee, (mem_functions hg).1, (mem_functions hg).2⟩
  have hcycle : ¬ Relation.TransGen (CallGraph.Calls c.callEdges) g g := by
    intro h
    rw [hc, CallGraph.isRecursive_ofCalls.2 h] at hrec
    cases hrec
  refine Finset.card_lt_card (Finset.ssubset_iff_of_subset (fun p hp => ?_) |>.2 ⟨g, ?_, ?_⟩)
  · exact mem_reachable.2 ⟨(mem_reachable.1 hp).1, .head hcall (mem_reachable.1 hp).2⟩
  · exact mem_reachable.2 ⟨hname, .single hcall⟩
  · exact fun h => hcycle (mem_reachable.1 h).2

end Context

/-! ## How often predicates are opened inside each other -/

namespace Splitter

variable {c : Context} {v : View} {goal e : Source.Expr} {n m r : Nat}

/-- From an expression, and whatever is below it, no more than so many predicates are opened inside
each other that are not recursive. -/
def Within (c : Context) : Nat → Source.Expr → Prop
  | 0, e => ∀ d ∈ e.subexprs, ∀ body, ¬ c.OpensOnce d body
  | n + 1, e => ∀ d ∈ e.subexprs, ∀ body, c.OpensOnce d body → Within c n body

theorem within_iff : Within c n e ↔ ∀ d ∈ e.subexprs, ∀ body, c.OpensOnce d body →
    ∃ m, n = m + 1 ∧ Within c m body := by
  cases n <;> simp [Within]

theorem Within.mono (h : Within c n e) (hnm : n ≤ m) : Within c m e := by
  induction n generalizing m e with
  | zero => exact within_iff.2 fun d hd body ho => absurd ho (h d hd body)
  | succ n ih =>
    obtain ⟨m, rfl⟩ := Nat.exists_eq_succ_of_ne_zero (Nat.ne_of_gt (Nat.lt_of_lt_of_le n.succ_pos hnm))
    exact fun d hd body ho => ih (h d hd body ho) (Nat.le_of_succ_le_succ hnm)

theorem Within.of_mem (h : Within c n e) {d : Source.Expr} (hd : d ∈ e.subexprs) :
    Within c n d :=
  within_iff.2 fun _ ha => within_iff.1 h _ (Expr.mem_subexprs_trans ha hd)

theorem within_var {i : Info} {x : String} : Within c n (.var i x) := by
  refine within_iff.2 fun d hd body ho => ?_
  obtain ⟨i, f, receiver, args, rfl, -, -⟩ := ho
  simp [Expr.subexprs] at hd

/-- The functions that are called in an expression and can be opened there lead to fewer than so
many functions. -/
def Below (c : Context) (r : Nat) (e : Source.Expr) : Prop :=
  ∀ i f receiver args, .call i f receiver args ∈ e.subexprs →
    c.calls.isRecursive f = false → (∃ callee, c.function f = .ok callee) → c.rank f < r

theorem Below.of_mem (h : Below c r e) {d : Source.Expr} (hd : d ∈ e.subexprs) : Below c r d :=
  fun i f receiver args hcall => h i f receiver args (Expr.mem_subexprs_trans hcall hd)

/-- How often predicates are opened for one node of an expression whose calls lead to fewer than
`r` functions, if bodies have at most `size` nodes. -/
def openings (size : Nat) : Nat → Nat
  | 0 => 0
  | r + 1 => 1 + size * openings size r

theorem openings_le (size r : Nat) : openings size r ≤ (size + 1) ^ r := by
  induction r with
  | zero => exact Nat.zero_le _
  | succ r ih =>
    calc openings size (r + 1) = 1 + size * openings size r := rfl
      _ ≤ (size + 1) ^ r + size * (size + 1) ^ r :=
        Nat.add_le_add (Nat.one_le_pow _ _ (Nat.succ_pos _)) (Nat.mul_le_mul_left _ ih)
      _ = (size + 1) ^ (r + 1) := by
        rw [Nat.pow_succ, Nat.mul_succ, Nat.mul_comm size, Nat.add_comm]

/-- A body is opened at the receiver and the arguments of the call. -/
theorem mem_values_passing {callee : Function} {receiver : Option Source.Expr}
    {args : List Source.Expr} {a : Source.Expr} (ha : a ∈ (callee.passing receiver args).values) :
    a ∈ receiver.toList ++ args := by
  rcases Subst.mem_values_ofBindings ha with h | ⟨x, h⟩
  · split at h
    · simp [h]
    · cases h
  · exact List.mem_append_right _ (List.of_mem_zip h).2

/-- How often predicates are opened in a substituted expression: as often as in the values, and so
often again for every node of the expression itself. -/
theorem within_subst (hc : c.HasCallGraph) {size : Nat}
    (hsize : ∀ f ∈ c.functions, ∀ b ∈ f.body, b.size ≤ size) (r : Nat) (e : Source.Expr)
    {s : Subst} {k : Nat} (he : Below c r e) (hs : ∀ a ∈ s.values, Within c k a) :
    Within c (k + e.size * openings size r) (e.subst s) := by
  induction r using Nat.strongRecOn generalizing e s k with | ind r ihr => ?_
  induction hn : e.size using Nat.strongRecOn generalizing e s k with | ind n ihe => ?_
  subst hn
  refine within_iff.2 fun d hd body hopens => ?_
  obtain ⟨i, f, receiver, args, rfl, hrec, callee, b, hf, hb, rfl⟩ := hopens
  rcases Expr.call_subst hd with ⟨a, ha, hcall⟩ | ⟨receiver', args', s', hcall, hs', rfl, rfl⟩
  · -- the call came in with a value
    obtain ⟨m, rfl, hm⟩ := within_iff.1 (hs a ha) _ hcall _
      ⟨i, f, receiver, args, rfl, hrec, callee, b, hf, hb, rfl⟩
    exact ⟨m + e.size * openings size r, by omega, hm.mono (Nat.le_add_right _ _)⟩
  · -- the call is one of the expression, so its callee is further down and its arguments smaller
    have hrank : c.rank f < r := he i f receiver' args' hcall hrec ⟨callee, hf⟩
    obtain ⟨r, rfl⟩ := Nat.exists_eq_succ_of_ne_zero (Nat.ne_of_gt (Nat.zero_lt_of_lt hrank))
    have hargs : ∀ a ∈ receiver'.toList ++ args',
        Within c (k + (e.size - 1) * openings size (r + 1)) (a.subst s') := by
      intro a ha
      have hpart : ([], a) ∈ (Source.Expr.call i f receiver' args').parts :=
        List.mem_map.2 ⟨a, ha, rfl⟩
      have hlt : a.size < e.size :=
        Nat.lt_of_lt_of_le (Expr.size_lt_of_part hpart) (Expr.size_le_of_mem hcall)
      have hbelow : Below c (r + 1) a :=
        he.of_mem (Expr.mem_subexprs_trans (Expr.mem_subexprs_part hpart (Expr.mem_subexprs_self a))
          hcall)
      have hvalues : ∀ d ∈ s'.values, Within c k d := fun d hd =>
        (hs' d hd).elim (hs d) fun ⟨_, _, hvar⟩ => hvar ▸ within_var
      exact (ihe _ hlt a hbelow hvalues rfl).mono
        (Nat.add_le_add_left (Nat.mul_le_mul_right _ (by omega)) k)
    have hbelow : Below c r b := fun j g receiver args hcall hrec hg =>
      Nat.lt_of_lt_of_le (hg.elim fun _ hg =>
        Context.rank_lt hc (Context.calls_of_body hf hb hcall) hg hrec) (Nat.le_of_lt_succ hrank)
    have hpassed : ∀ a ∈ (callee.passing (receiver'.map (Expr.subst s'))
        (args'.map (Expr.subst s'))).values,
        Within c (k + (e.size - 1) * openings size (r + 1)) a := by
      intro a ha
      have ha := mem_values_passing ha
      simp only [List.mem_append, Option.mem_toList, Option.map_eq_some_iff, List.mem_map] at ha
      rcases ha with ⟨d, hd, rfl⟩ | ⟨d, hd, rfl⟩
      · exact hargs d (by simp [hd])
      · exact hargs d (by simp [hd])
    have hbody := ihr r (Nat.lt_succ_self r) b hbelow hpassed
    refine ⟨_, ?_, hbody.mono (Nat.add_le_add_left (Nat.mul_le_mul_right _
      (hsize callee (Context.mem_functions hf).1 b hb)) _)⟩
    obtain ⟨l, hl⟩ := Nat.exists_eq_succ_of_ne_zero (Nat.ne_of_gt e.size_pos)
    rw [hl, Nat.succ_sub_one, Nat.succ_mul, openings]
    omega

theorem le_foldl_max {l : List Nat} {a b : Nat} (h : b ≤ a ∨ b ∈ l) : b ≤ l.foldl max a := by
  induction l generalizing a with
  | nil => simpa using h
  | cons d l ih =>
    refine ih ?_
    rcases h with h | h
    · exact .inl (Nat.le_trans h (Nat.le_max_left a d))
    · rcases List.mem_cons.1 h with rfl | h
      · exact .inl (Nat.le_max_right a b)
      · exact .inr h

/-- The splitter has fuel for all predicates that can be opened inside each other. -/
theorem within_openingBound (hc : c.HasCallGraph) (goal : Source.Expr) :
    Within c (openingBound c goal) goal := by
  let bound := (c.functions.map fun f => (f.body.map Expr.size).getD 0).foldl max goal.size
  have hsize : ∀ f ∈ c.functions, ∀ b ∈ f.body, b.size ≤ bound := fun f hf b hb =>
    le_foldl_max (.inr (List.mem_map.2 ⟨f, hf, by simp [Option.mem_def.1 hb]⟩))
  have hgoal : goal.size ≤ bound := le_foldl_max (.inl (Nat.le_refl _))
  have hbelow : Below c (c.functions.length + 1) goal := fun _ f _ _ _ _ _ =>
    Nat.lt_succ_of_le (c.rank_le f)
  have hwithin := within_subst (s := {}) (k := 0) hc hsize _ goal hbelow (by simp [Subst.values])
  rw [Expr.subst_empty, Nat.zero_add] at hwithin
  refine hwithin.mono ?_
  calc goal.size * openings bound (c.functions.length + 1)
      ≤ (bound + 1) * (bound + 1) ^ (c.functions.length + 1) :=
        Nat.mul_le_mul (Nat.le_succ_of_le hgoal) (openings_le _ _)
    _ = (bound + 1) ^ (c.functions.length + 2) := by rw [Nat.pow_succ _ (_ + 1), Nat.mul_comm]

/-! ## The splitter comes to an end -/

theorem mem_subexprs_of_subgoal {g : Source.Expr} (hg : g ∈ subgoals goal) :
    g ∈ goal.subexprs ∧ sizeOf g < sizeOf goal := by
  have hself := Expr.mem_subexprs_self g
  unfold subgoals at hg
  split at hg <;> simp only [List.mem_cons, List.not_mem_nil, or_false] at hg
  · rcases hg with rfl | rfl
    · simp [Expr.subexprs, hself]; omega
    · simp [Expr.subexprs, hself]
  · subst hg; simp [Expr.subexprs, hself]
  · subst hg; simp [Expr.subexprs, hself]
  · rcases hg with rfl | rfl
    · simp [Expr.subexprs, hself]; omega
    · simp [Expr.subexprs, hself]
  · subst hg; simp [Expr.subexprs, hself]
  · subst hg; simp [Expr.subexprs, hself]; omega

/-- At a height, splitting ends by the number of openings and then by the size of the goal, if it
ends at the height below. -/
theorem acc_of_within {height : Nat}
    (hlower : ∀ h, height = h + 1 → ∀ goal, Acc (Next c) (h, goal)) (n : Nat) :
    ∀ goal, Within c n goal → Acc (Next c) (height, goal) := by
  induction n using Nat.strongRecOn with | ind n ihn => ?_
  intro goal
  induction hsize : sizeOf goal using Nat.strongRecOn generalizing goal with | ind l ihsize => ?_
  subst hsize
  refine fun hwithin => ⟨_, fun y hy => ?_⟩
  cases hy with
  | subgoal hsub =>
    obtain ⟨hmem, hlt⟩ := mem_subexprs_of_subgoal hsub
    exact ihsize _ hlt _ rfl (hwithin.of_mem hmem)
  | opened hopens =>
    cases hopens with
    | recursive hrec hbody => exact hlower _ rfl _
    | once hbody =>
      obtain ⟨m, rfl, hm⟩ := within_iff.1 hwithin _ (Expr.mem_subexprs_self _) _ hbody
      exact ihn m (Nat.lt_succ_self m) _ hm

/-- The recursion of the splitter is well-founded. -/
theorem wellFounded_next (hc : c.HasCallGraph) : WellFounded (Next c) := by
  refine ⟨fun ⟨height, goal⟩ => ?_⟩
  induction height generalizing goal with
  | zero => exact acc_of_within (fun h hh => absurd hh.symm (Nat.succ_ne_zero h)) _ goal (within_openingBound hc goal)
  | succ height ih =>
    refine acc_of_within (fun h hh => ?_) _ goal (within_openingBound hc goal)
    obtain rfl := Nat.succ.inj hh
    exact ih

/-- Whatever fuel is enough, the splitter does the same, and what it does is one round in which it
splits what is left. -/
theorem splitGoal_same (hc : c.HasCallGraph) (n : Nat) :
    ∀ goal, Within c n goal → ∀ height induct fuel, n ≤ fuel →
      DeclM.SameIn c (splitGoal v height fuel induct goal) (splitAt v height induct goal) ∧
      DeclM.SameIn c (splitGoal v height fuel induct goal)
        (splitOnce v (splitAt v) height induct goal) := by
  induction n using Nat.strongRecOn with | ind n ihn => ?_
  intro goal
  induction hsize : sizeOf goal using Nat.strongRecOn generalizing goal with | ind l ihsize => ?_
  subst hsize
  intro hwithin height induct fuel hfuel
  have round {fuel : Nat} (hfuel : n ≤ fuel) :
      DeclM.SameIn c (splitGoal v height fuel induct goal)
        (splitOnce v (splitAt v) height induct goal) := by
    rw [splitGoal_eq]
    refine splitWith_same (fun g hg => ?_) fun h body hopens unfolded => ?_
    · obtain ⟨hmem, hlt⟩ := mem_subexprs_of_subgoal hg
      exact (ihsize _ hlt g rfl (hwithin.of_mem hmem) height induct fuel hfuel).1
    · cases hopens with
      | recursive => rw [openWith_lower]; exact .refl _
      | once hbody =>
        obtain ⟨m, rfl, hm⟩ := within_iff.1 hwithin _ (Expr.mem_subexprs_self _) _ hbody
        obtain ⟨less, rfl⟩ : ∃ less, fuel = less + 1 := ⟨fuel - 1, by omega⟩
        rw [openWith_same]
        exact (ihn m (Nat.lt_succ_self m) body hm _ false less (Nat.le_of_succ_le_succ hfuel)).1
  rcases Nat.lt_or_ge (openingBound c goal) n with hlt | hge
  · exact ihn _ hlt goal (within_openingBound hc goal) height induct fuel (by omega)
  · exact ⟨(round hfuel).trans (round hge).symm, round hfuel⟩

/-- Opening predicates terminates. The recursion of the splitter, in which nothing but the height of
recursive predicates goes down, is well-founded; it leads a round of the splitter nowhere else; and
what the splitter returns at a height is what that recursion gives, without any bound. -/
theorem splitting_terminates {program : Source.Program} {options : Options}
    (h : Context.ofProgram program options = .ok c) :
    WellFounded (Next c) ∧
    (∀ v rec rec' height induct goal,
      (∀ y, Next c y (height, goal) → ∀ induct, DeclM.SameIn c (rec y.1 induct y.2)
        (rec' y.1 induct y.2)) →
      DeclM.SameIn c (splitOnce v rec height induct goal) (splitOnce v rec' height induct goal)) ∧
    (∀ v height induct goal, DeclM.SameIn c (splitAt v height induct goal)
      (splitOnce v (splitAt v) height induct goal)) ∧
    ∀ v goal induct, DeclM.SameIn c (split v goal induct)
      (splitAt v options.splitHeight induct goal) := by
  have hc := Context.hasCallGraph_ofProgram h
  refine ⟨wellFounded_next hc, fun v rec rec' height induct goal hrec => ?_,
    fun v height induct goal => ?_, fun v goal induct => ?_⟩
  · exact splitWith_same (fun g hg => hrec (height, g) (.subgoal hg) induct)
      fun h body hopens _ => hrec (h, body) (.opened hopens) false
  · exact (splitGoal_same hc _ goal (within_openingBound hc goal) height induct _ (Nat.le_refl _)).2
  · rw [← Context.options_ofProgram h]
    exact .refl _

/-! ### A predicate that doubles its argument -/

namespace Doubling

/-- A predicate whose body holds its argument twice. -/
def both : Function where
  name := ⟨"M", ["C", "both"]⟩
  span := default
  owner := none
  typParams := []
  params := [("b", .bool)]
  result := ("r", .bool)
  requires := []
  reads := []
  ensures := []
  decreases := none
  body := some (.binary ⟨default, .bool⟩ .and (.mkVar default "b" .bool) (.mkVar default "b" .bool))
  isHidden := false
  refinement := default

def cls : Source.Class where
  path := ⟨"M", ["C"]⟩
  span := default
  typParams := []
  fields := []
  functions := [both]
  methods := []

def program : Source.Program := [{ name := "M", decls := [.cls cls] }]

/-- The predicate at its own result. -/
def nested : Source.Expr :=
  .call ⟨default, .bool⟩ both.name none
    [.call ⟨default, .bool⟩ both.name none [.bool ⟨default, .bool⟩ true]]

theorem nested_splitting_terminates : ∃ c, Context.ofProgram program {} = .ok c ∧
    (∃ body, Next c (1, body) (1, nested) ∧ nested.size < body.size) ∧ WellFounded (Next c) := by
  refine ⟨_, rfl, ⟨_, .opened (.once ⟨_, _, _, _, rfl, ?_, _, _, rfl, rfl, rfl⟩), ?_⟩,
    (@splitting_terminates _ program {} rfl).1⟩
  · cbv
  · cbv

end Doubling

end Splitter

end ContractLowering
