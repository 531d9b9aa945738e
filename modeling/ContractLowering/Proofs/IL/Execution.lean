import ContractLowering.IL.Program
import ContractLowering.Proofs.IL.Recursor
import ContractLowering.Proofs.IL.Semantics

/-!
# Executions of statements

An execution of a list of statements is a path through it, cut off at any place or followed to its
end, and the trace of what it meets: conditions that are assumed or asserted, and changes of the
state. A path goes on after a condition that fails. It is an execution proper if everything it
assumes holds (`Trace.Proper`), and it violates no assertion if everything it asserts holds
(`Trace.Safe`).

Calls behave as the contract of the procedure says. A loop asserts its invariants, gives arbitrary
values to what its body assigns, assumes the invariants and ends, or runs its body and starts again.
-/

namespace ContractLowering.IL

variable {M : Model}

/-! ## Values on entry -/

mutual

/-- The variables whose values on entry an expression reads. -/
def Expr.olds : Expr → List String
  | .bool _ | .num _ | .var _ => []
  | .old x => [x]
  | .app _ args => oldsList args
  | .applyLambda _ f args => f.olds ++ oldsList args
  | .not e => e.olds
  | .binary _ a b => a.olds ++ b.olds
  | .multi _ es => oldsList es
  | .ite c a b => c.olds ++ a.olds ++ b.olds
  | .letIn bindings body => oldsBindings bindings ++ body.olds
  | .quant _ _ _ body | .lambda _ body => body.olds

/-- The variables whose values on entry several expressions read. -/
def Expr.oldsList : List Expr → List String
  | [] => []
  | e :: es => e.olds ++ oldsList es

/-- The variables whose values on entry the bindings of a let read. -/
def Expr.oldsBindings : List (String × Expr) → List String
  | [] => []
  | (_, e) :: rest => e.olds ++ oldsBindings rest

end

section

variable {old old' : M.Valuation}

theorem evalList_congr_old {es : List Expr}
    (h : ∀ e ∈ es, (∀ x ∈ e.olds, old x = old' x) → ∀ ρ, e.eval old ρ = e.eval old' ρ)
    (hold : ∀ x ∈ Expr.oldsList es, old x = old' x) (ρ : M.Valuation) :
    Expr.evalList old es ρ = Expr.evalList old' es ρ := by
  induction es with
  | nil => rfl
  | cons e es ih =>
    simp only [Expr.oldsList, List.forall_mem_append] at hold
    obtain ⟨he, hes⟩ := List.forall_mem_cons.1 h
    rw [Expr.evalList, Expr.evalList, he hold.1, ih hes hold.2]

theorem evalBindings_congr_old {bs : List (String × Expr)}
    (h : ∀ b ∈ bs, (∀ x ∈ b.2.olds, old x = old' x) → ∀ ρ, b.2.eval old ρ = b.2.eval old' ρ)
    (hold : ∀ x ∈ Expr.oldsBindings bs, old x = old' x) (ρ : M.Valuation) :
    Expr.evalBindings old bs ρ = Expr.evalBindings old' bs ρ := by
  induction bs with
  | nil => rfl
  | cons b bs ih =>
    obtain ⟨x, e⟩ := b
    simp only [Expr.oldsBindings, List.forall_mem_append] at hold
    obtain ⟨hb, hbs⟩ := List.forall_mem_cons.1 h
    rw [Expr.evalBindings, Expr.evalBindings, hb hold.1, ih hbs hold.2]

/-- The value of an expression depends only on those values on entry that it reads. -/
theorem eval_congr_old {e : Expr} (h : ∀ x ∈ e.olds, old x = old' x) (ρ : M.Valuation) :
    e.eval old ρ = e.eval old' ρ := by
  induction e using Expr.recData generalizing ρ with
  | bool | num | var => rfl
  | old x => exact h x (by simp [Expr.olds])
  | app f args ih => rw [Expr.eval, Expr.eval, evalList_congr_old (fun e he h => ih e he h) h]
  | applyLambda s f args ihf ih =>
    simp only [Expr.olds, List.forall_mem_append] at h
    rw [Expr.eval, Expr.eval, ihf h.1, evalList_congr_old (fun e he h => ih e he h) h.2]
  | not e ih => rw [Expr.eval, Expr.eval, ih h]
  | binary op a b iha ihb =>
    simp only [Expr.olds, List.forall_mem_append] at h
    rw [Expr.eval, Expr.eval, iha h.1, ihb h.2]
  | multi op es ih => rw [Expr.eval, Expr.eval, evalList_congr_old (fun e he h => ih e he h) h]
  | ite c a b ihc iha ihb =>
    simp only [Expr.olds, List.forall_mem_append] at h
    rw [Expr.eval, Expr.eval, ihc h.1.1, iha h.1.2, ihb h.2]
  | letIn bs body ihbs ihb =>
    simp only [Expr.olds, List.forall_mem_append] at h
    rw [Expr.eval, Expr.eval, evalBindings_congr_old (fun b hb h => ihbs b hb h) h.1, ihb h.2]
  | quant q bs ts body ih => cases q <;> simp only [Expr.eval, ih h]
  | lambda bs body ih => simp only [Expr.eval, ih h]

end

/-! ## Traces -/

/-- What an execution meets: a condition, with the values of variables on entry to the procedure and
at its place, or a statement that leads to a state. -/
inductive Event (M : Model) where
  | assumed (old ρ : M.Valuation) (e : Expr)
  | asserted (old ρ : M.Valuation) (e : Expr)
  | changed (s : Stmt) (ρ : M.Valuation)

/-- What an execution meets, in order. -/
abbrev Trace (M : Model) := List (Event M)

/-- Everything that is assumed holds. -/
def Trace.Proper (tr : Trace M) : Prop := ∀ old ρ e, .assumed old ρ e ∈ tr → Holds old ρ e

/-- Everything that is asserted holds. -/
def Trace.Safe (tr : Trace M) : Prop := ∀ old ρ e, .asserted old ρ e ∈ tr → Holds old ρ e

/-- How an execution of statements ends, with the state it leads to. One that is cut off may go
on. -/
inductive Ending (M : Model) where
  | done (ρ : M.Valuation)
  | left (label : Option String) (ρ : M.Valuation)
  | returned (ρ : M.Valuation)
  | cut (ρ : M.Valuation)

/-! ## Single steps -/

namespace Procedure

variable (p : Procedure)

/-- The values that a callee sees when it is called: those of the caller, and its parameters. -/
def entry (args : List M.Val) (ρ : M.Valuation) : M.Valuation :=
  Model.bind ((p.params.map (·.1)).zip args) ρ

/-- The values that a callee sees when it ends: its parameters and its results. -/
def exit (args results : List M.Val) (ρ : M.Valuation) : M.Valuation :=
  Model.bind ((p.params.map (·.1)).zip args ++ (p.outs.map (·.1)).zip results) ρ

/-- The requires clauses that a caller has to establish. -/
def demands (args : List M.Val) (ρ : M.Valuation) : Trace M :=
  (p.requires.filter (!·.free)).map fun k => .asserted (p.entry args ρ) (p.entry args ρ) k.expr

/-- The ensures clauses, of which a caller may assume all. -/
def promises (args results : List M.Val) (ρ ρ' : M.Valuation) : Trace M :=
  p.ensures.map fun k => .assumed (p.entry args ρ) (p.exit args results ρ') k.expr

end Procedure

/-- A statement without control flow leads from one state to another. -/
inductive Stmt.Steps (procs : List Procedure) (old : M.Valuation) :
    Stmt → M.Valuation → Trace M → M.Valuation → Prop
  | assume (e : Expr) (ρ : M.Valuation) : Steps procs old (.assume e) ρ [.assumed old ρ e] ρ
  | assert (msg : Message) (e : Expr) (ρ : M.Valuation) :
      Steps procs old (.assert msg e) ρ [.asserted old ρ e] ρ
  | havoc (x : String) (a : M.Val) (ρ : M.Valuation) :
      Steps procs old (.havoc x) ρ [.changed (.havoc x) (Function.update ρ x a)]
        (Function.update ρ x a)
  | assign (x : String) (e : Expr) (ρ : M.Valuation) :
      Steps procs old (.assign x e) ρ [.changed (.assign x e) (Function.update ρ x (e.eval old ρ))]
        (Function.update ρ x (e.eval old ρ))
  | call {p : Procedure} (hp : p ∈ procs) (args : List Expr) (outs : List String)
      {ρ ρ' : M.Valuation} (hsame : ∀ x, x ∉ p.modifies → x ∉ outs → ρ' x = ρ x) :
      Steps procs old (.call p.name args outs) ρ
        (p.demands (args.map (·.eval old ρ)) ρ ++ .changed (.call p.name args outs) ρ' ::
          p.promises (args.map (·.eval old ρ)) (outs.map ρ') ρ ρ') ρ'

/-! ## Control flow -/

mutual

/-- The variables that a statement assigns, those that callees modify included. -/
def Stmt.targets (procs : List Procedure) : Stmt → List String
  | .havoc x | .assign x _ => [x]
  | .call p _ outs => outs ++ (procs.filter (·.name = p)).flatMap (·.modifies)
  | .ifElse _ a b => targetsAll procs a ++ targetsAll procs b
  | .loop _ _ body | .block _ body => targetsAll procs body
  | .assume _ | .assert .. | .leave _ | .ret => []

/-- The variables that several statements assign. -/
def Stmt.targetsAll (procs : List Procedure) : List Stmt → List String
  | [] => []
  | s :: ss => s.targets procs ++ targetsAll procs ss

end

/-- What stands for a guard in the branch where it holds. -/
def assumeGuard (guard : Option Expr) : List Stmt := guard.toList.map .assume

/-- What stands for a guard in the branch where it does not hold. -/
def refuteGuard (guard : Option Expr) : List Stmt := guard.toList.map fun e => .assume (.not e)

/-- The start of an iteration, which is an arbitrary one: the checked invariants are asserted, all
are assumed. -/
def loopHead (xs : List String) (invariants : List Clause) : List Stmt :=
  (invariants.filter (!·.free)).map (fun k => .assert (k.msg.getD default) k.expr)
    ++ xs.map .havoc ++ invariants.map (.assume ·.expr)

/-- The ways through a statement with control flow: the statements that are run for it, and those
that remain of it afterwards. -/
inductive Stmt.Opens (procs : List Procedure) : Stmt → List Stmt → List Stmt → Prop
  | thn (guard : Option Expr) (a b : List Stmt) :
      Opens procs (.ifElse guard a b) (assumeGuard guard ++ a) []
  | els (guard : Option Expr) (a b : List Stmt) :
      Opens procs (.ifElse guard a b) (refuteGuard guard ++ b) []
  | again (guard : Option Expr) (ks : List Clause) (body : List Stmt) :
      Opens procs (.loop guard ks body)
        (loopHead (Stmt.targetsAll procs body) ks ++ assumeGuard guard ++ body)
        [.loop guard ks body]
  | finished (guard : Option Expr) (ks : List Clause) (body : List Stmt) :
      Opens procs (.loop guard ks body)
        (loopHead (Stmt.targetsAll procs body) ks ++ refuteGuard guard) []
  | block (label : Option String) (body : List Stmt) : Opens procs (.block label body) body []

/-- Whether leaving with a label inside a statement only leaves this statement. -/
def Stmt.catches : Stmt → Option String → Bool
  | .loop .., none => true
  | .block (some label) _, some l => label = l
  | _, _ => false

/-- How an ending inside a statement ends the statements around it. -/
inductive Stmt.Escapes (s : Stmt) : Ending M → Prop
  | left {label : Option String} {ρ : M.Valuation} (h : s.catches label = false) :
      Escapes s (.left label ρ)
  | returned {ρ : M.Valuation} : Escapes s (.returned ρ)
  | cut {ρ : M.Valuation} : Escapes s (.cut ρ)

/-- Statements are executed from a state, with a trace and an ending. -/
inductive Exec (procs : List Procedure) (old : M.Valuation) :
    List Stmt → M.Valuation → Trace M → Ending M → Prop
  | cut (ss : List Stmt) (ρ : M.Valuation) : Exec procs old ss ρ [] (.cut ρ)
  | nil (ρ : M.Valuation) : Exec procs old [] ρ [] (.done ρ)
  | step {s : Stmt} {ss : List Stmt} {ρ ρ' : M.Valuation} {tr tr' : Trace M} {k : Ending M}
      (h : s.Steps procs old ρ tr ρ') (hs : Exec procs old ss ρ' tr' k) :
      Exec procs old (s :: ss) ρ (tr ++ tr') k
  | leave (label : Option String) (ss : List Stmt) (ρ : M.Valuation) :
      Exec procs old (.leave label :: ss) ρ [] (.left label ρ)
  | ret (ss : List Stmt) (ρ : M.Valuation) : Exec procs old (.ret :: ss) ρ [] (.returned ρ)
  | through {s : Stmt} {ss ts rest : List Stmt} {ρ ρ' : M.Valuation} {tr tr' : Trace M}
      {k : Ending M} (ho : s.Opens procs ts rest) (h : Exec procs old ts ρ tr (.done ρ'))
      (hs : Exec procs old (rest ++ ss) ρ' tr' k) : Exec procs old (s :: ss) ρ (tr ++ tr') k
  | leftIt {s : Stmt} {ss ts rest : List Stmt} {ρ ρ' : M.Valuation} {tr tr' : Trace M}
      {k : Ending M} {label : Option String} (ho : s.Opens procs ts rest)
      (h : Exec procs old ts ρ tr (.left label ρ')) (hc : s.catches label = true)
      (hs : Exec procs old ss ρ' tr' k) : Exec procs old (s :: ss) ρ (tr ++ tr') k
  | escape {s : Stmt} {ss ts rest : List Stmt} {ρ : M.Valuation} {tr : Trace M} {k : Ending M}
      (ho : s.Opens procs ts rest) (h : Exec procs old ts ρ tr k) (hk : s.Escapes k) :
      Exec procs old (s :: ss) ρ tr k

/-! ## Conditions -/

namespace Stmt

/-- The conditions that statements assert, in order. -/
def asserted (stmts : List Stmt) : List Expr :=
  stmts.filterMap fun
    | .assert _ e => some e
    | _ => none

/-- The conditions that statements assume, in order. -/
def assumed (stmts : List Stmt) : List Expr :=
  stmts.filterMap fun
    | .assume e => some e
    | _ => none

/-- Whether a statement is an assertion or an assumption. -/
def isCondition : Stmt → Bool
  | .assert .. | .assume _ => true
  | _ => false

@[simp] theorem asserted_nil : asserted [] = [] := rfl

@[simp] theorem assumed_nil : assumed [] = [] := rfl

@[simp] theorem asserted_append (s t : List Stmt) : asserted (s ++ t) = asserted s ++ asserted t :=
  List.filterMap_append

@[simp] theorem assumed_append (s t : List Stmt) : assumed (s ++ t) = assumed s ++ assumed t :=
  List.filterMap_append

end Stmt

end ContractLowering.IL
