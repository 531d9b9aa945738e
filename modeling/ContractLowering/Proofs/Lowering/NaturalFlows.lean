import ContractLowering.Proofs.Lowering.Naturals
import ContractLowering.Lowering.Function

/-!
# The checks of integers that become natural numbers

`MovesToNat` lists the statements that move the value of an expression to a place of type `nat`:
initialisation and assignment, arguments of method calls, returned and yielded values, and their
forms in forall statements. `PassesToNat` lists the operations that pass the value of an argument to
a parameter or constructor field of type `nat`. If the expression has type `int`, its value is
asserted to be natural on the way (`naturals_asserted`).

Two flows are not among them, since nothing checks them: the body of a function with a natural
result, and a result of a method that a call stores (`function_body_and_result_unchecked`).
-/

namespace ContractLowering

open IL Source BodyM

/-! ## Statements -/

/-- A statement, in a body with given out-parameters, moves the value of an expression to a place
for natural numbers. -/
inductive Source.Stmt.MovesToNat (c : Context) (outs : List Source.Binder) :
    Source.Stmt → Source.Expr → Prop
  | init {span x e} : MovesToNat c outs (.varDecl span x .nat (some (.expr e))) e
  | assign {span lhss rhss lhs e} (hmem : (lhs, .expr e) ∈ lhss.zip rhss)
      (hl : lhs.Holds c .nat) : MovesToNat c outs (.assign span lhss rhss) e
  | arg {span m callee receiver args targets e x} (hm : c.method m = .ok callee)
      (hmem : (e, x, .nat) ∈ args.zip callee.ins) :
      MovesToNat c outs (.call span m receiver args targets) e
  | ret {span es e x} (hmem : (e, x, .nat) ∈ es.zip outs) :
      MovesToNat c outs (.ret span (some es)) e
  | yield {span es e x} (hmem : (e, x, .nat) ∈ es.zip outs) :
      MovesToNat c outs (.yield span (some es)) e
  | forallAssign {span d lhs e} (hl : lhs.Holds c .nat) :
      MovesToNat c outs (.forallAssign span d lhs e) e
  | forallArg {span d m callee receiver args e x} (hm : c.method m = .ok callee)
      (hmem : (e, x, .nat) ∈ args.zip callee.ins) :
      MovesToNat c outs (.forallCall span d m receiver args) e

/-- Code that checks a value to be natural: right before it is moved, or, where it is moved for all
values of bound variables, in the branch that checks it for arbitrary ones. -/
inductive Guarded (a : IL.Expr) : List IL.Stmt → Prop
  | moved {ss} (h : Moved a ss) : Guarded a ss
  | choice {checked effect} (h : Asserted a checked) :
      Guarded a [.ifElse none (checked ++ [.assume .ff]) effect]

section

variable {c : Context} {s s' : Progress} {b : Body} {v : View} {ss : List IL.Stmt}

theorem Simple.havocDomain (v : View) (d : Domain) : Simple (ContractLowering.havocDomain v d) :=
  of_writing fun _ => Writing.havocDomain v fun _ _ => trivial

theorem forallAssign_asserts {span : Span} {d : Domain} {lhs : Lhs} {e : Source.Expr}
    (hl : lhs.Holds c .nat) (he : e.typ = .int)
    (h : (b.lowerStmt v (.forallAssign span d lhs e)).Emits c s () ss s') :
    ∃ a, LowersTo c v e a ∧ Guarded a ss := by
  unfold Body.lowerStmt forallChoice at h
  obtain ⟨checked, s₁, _, _, hblock, h₁, rfl⟩ := emits_bind.1 h
  obtain ⟨hchecked, rfl⟩ := emits_block.1 hblock
  obtain ⟨effect, s₂, _, _, heffect, h₂, rfl⟩ := emits_bind.1 h₁
  obtain ⟨-, rfl⟩ := emits_block.1 heffect
  obtain ⟨rfl, -⟩ := emits_add.1 h₂
  obtain ⟨_, s₃, domain, _, hdomain, h₃, rfl⟩ := emits_bind.1 hchecked
  obtain ⟨target, s₄, first, _, htarget, h₄, rfl⟩ := emits_bind.1 h₃
  obtain ⟨x, s₅, value, last, hvalue, -, rfl⟩ := emits_bind.1 h₄
  rw [ofLhs_typ hl htarget] at hvalue
  obtain ⟨hlow, pre, hpre, rfl⟩ := evalRhs_asserts he hvalue
  refine ⟨x, hlow, .choice ⟨domain ++ first ++ pre, natMessage e.span, last, ?_, by simp⟩⟩
  exact simple_append (simple_append (Simple.havocDomain v d hdomain) (Simple.ofLhs v lhs htarget))
    hpre

theorem forallCall_moves {span : Span} {d : Domain} {m : Path} {callee : Method}
    (hm : c.method m = .ok callee) {receiver : Option Source.Expr} {args : List Source.Expr}
    {e : Source.Expr} {x : String} (hmem : (e, x, .nat) ∈ args.zip callee.ins) (he : e.typ = .int)
    (h : (b.lowerStmt v (.forallCall span d m receiver args)).Emits c s () ss s') :
    ∃ a ts, LowersTo c v e a ∧ Moved a ts ∧ Within ts ss := by
  unfold Body.lowerStmt at h
  obtain ⟨⟨callee', checked⟩, s₁, _, _, hinside, h₁, rfl⟩ := emits_bind.1 h
  obtain ⟨hchecked, rfl⟩ := emits_inside.1 hinside
  obtain ⟨effect, s₂, _, _, heffect, h₂, rfl⟩ := emits_bind.1 h₁
  obtain ⟨-, rfl⟩ := emits_block.1 heffect
  obtain ⟨rfl, -⟩ := emits_add.1 h₂
  obtain ⟨_, s₃, domain, _, -, h₃, heq⟩ := emits_bind.1 hchecked
  obtain ⟨_, s₄, -, h₄⟩ := emits_decl_bind.1 h₃
  obtain ⟨_, -, h₅⟩ := emits_expr_bind.1 h₄
  split at h₅
  · obtain ⟨_, _, hreject, -⟩ := emits_decl_bind.1 h₅
    exact (DeclM.gives_reject hreject).elim
  · obtain ⟨_, s₅, call, last, hcall, -, rfl⟩ := emits_bind.1 h₅
    obtain ⟨a, hlow, hmoved⟩ := lowerCall_moves hm hmem he hcall
    have hin : Within call checked := (show checked = _ from heq) ▸ ((Within.refl call).left last).right domain
    exact ⟨a, call, hlow, hmoved, .thn List.mem_cons_self (hin.left _)⟩

theorem lowerYield_moves {span : Span} {es : List Source.Expr} {e : Source.Expr} {x : String}
    (hmem : (e, x, .nat) ∈ es.zip b.outs) (he : e.typ = .int)
    (h : (b.lowerYield v span (some es)).Emits c s () ss s') :
    ∃ a, LowersTo c v e a ∧ Moved a ss := by
  unfold Body.lowerYield at h
  obtain ⟨p, s₁, -, h₁⟩ := emits_decl_bind.1 h
  split at h₁
  · obtain ⟨_, s₂, first, rest, hfirst, -, rfl⟩ := emits_bind.1 h₁
    obtain ⟨a, hlow, hmoved⟩ := assignOuts_moves hmem he hfirst
    exact ⟨a, hlow, by simpa using hmoved.append (List.forall_mem_nil _) rest⟩
  · obtain ⟨hreject, -⟩ := emits_ofDecl.1 h₁
    exact (DeclM.gives_reject hreject).elim

/-- A statement that moves an integer to a place for natural numbers checks it. -/
theorem lowerStmt_guards {t : Source.Stmt} {e : Source.Expr} (ht : t.MovesToNat c b.outs e)
    (he : e.typ = .int) (h : (b.lowerStmt v t).Emits c s () ss s') :
    ∃ a ts, LowersTo c v e a ∧ Guarded a ts ∧ Within ts ss := by
  cases ht with
  | init =>
    unfold Body.lowerStmt at h
    obtain ⟨a, hlow, hmoved⟩ := lowerVarDecl_moves he h
    exact ⟨a, ss, hlow, .moved hmoved, .refl _⟩
  | assign hmem hl =>
    unfold Body.lowerStmt at h
    obtain ⟨a, hlow, hmoved⟩ := lowerAssign_moves hmem hl he h
    exact ⟨a, ss, hlow, .moved hmoved, .refl _⟩
  | arg hm hmem =>
    unfold Body.lowerStmt at h
    obtain ⟨a, hlow, hmoved⟩ := lowerCall_moves hm hmem he h
    exact ⟨a, ss, hlow, .moved hmoved, .refl _⟩
  | ret hmem =>
    unfold Body.lowerStmt at h
    obtain ⟨_, s₁, first, rest, hfirst, -, rfl⟩ := emits_bind.1 h
    obtain ⟨a, hlow, hmoved⟩ := assignOuts_moves hmem he hfirst
    exact ⟨a, first, hlow, .moved hmoved, (Within.refl _).left _⟩
  | yield hmem =>
    unfold Body.lowerStmt at h
    obtain ⟨a, hlow, hmoved⟩ := lowerYield_moves hmem he h
    exact ⟨a, ss, hlow, .moved hmoved, .refl _⟩
  | forallAssign hl =>
    obtain ⟨a, hlow, hguarded⟩ := forallAssign_asserts hl he h
    exact ⟨a, ss, hlow, hguarded, .refl _⟩
  | forallArg hm hmem =>
    obtain ⟨a, ts, hlow, hmoved, hin⟩ := forallCall_moves hm hmem he h
    exact ⟨a, ts, hlow, .moved hmoved, hin⟩

end

/-! ## Expressions -/

/-- An operation passes the value of an argument to a parameter or a constructor field for natural
numbers. -/
inductive Source.Expr.PassesToNat (c : Context) : Source.Expr → Source.Expr → Prop
  | call {i f callee receiver args e x} (hf : c.function f = .ok callee)
      (hmem : (e, x, .nat) ∈ args.zip callee.params) :
      PassesToNat c (.call i f receiver args) e
  | ctor {i dt d k ctor args e x} (hd : c.datatype dt = .ok d) (hk : d.ctor k = .ok ctor)
      (hmem : (e, x, .nat) ∈ args.zip ctor.fields) : PassesToNat c (.ctor i dt k args) e

section

variable {env : Env} {v : View} {limits : Limits} {frames : List Frame}

/-- That the value of an expression is natural. -/
def natObligation (e : Source.Expr) (a : IL.Expr) : Obligation :=
  ⟨.le (.nat 0) a, natMessage e.span⟩

theorem natArgs_mem {args : List Source.Expr} {params : List Source.Binder} {e : Source.Expr}
    {x : String} (hmem : (e, x, .nat) ∈ args.zip params) (he : e.typ = .int)
    {os : List Obligation} (h : (Obligation.natArgs v args params).Returns env os) :
    ∃ a, (lowerExpr v e).Returns env a ∧ natObligation e a ∈ os := by
  induction args generalizing params os with
  | nil => simp at hmem
  | cons arg args ih =>
    cases params with
    | nil => simp at hmem
    | cons param params =>
      unfold Obligation.natArgs at h
      rcases List.mem_cons.1 hmem with heq | hmem
      · obtain ⟨rfl, rfl⟩ : e = arg ∧ (x, Typ.nat) = param := by simpa using heq
        simp only [he, needsNatCheck, if_true, ExprM.returns_bind, ExprM.returns_pure] at h
        obtain ⟨a, ha, _, rfl, rest, -, rfl⟩ := h
        exact ⟨a, ha, List.mem_append_left _ (List.mem_singleton_self _)⟩
      · obtain ⟨here, rest, hrest, rfl⟩ : ∃ here rest,
            (Obligation.natArgs v args params).Returns env rest ∧ os = here ++ rest := by
          dsimp only at h
          split at h
          · simp only [ExprM.returns_bind, ExprM.returns_pure] at h
            obtain ⟨a, -, here, -, rest, hrest, rfl⟩ := h
            exact ⟨here, rest, hrest, rfl⟩
          · simp only [ExprM.returns_bind, ExprM.returns_pure] at h
            obtain ⟨here, -, rest, hrest, rfl⟩ := h
            exact ⟨here, rest, hrest, rfl⟩
        obtain ⟨a, ha, hmem⟩ := ih hmem hrest
        exact ⟨a, ha, List.mem_append_right _ hmem⟩

/-- An operation that passes an integer as a natural number has to show that it is one. -/
theorem nodeObligations_nat {n e : Source.Expr} (hn : n.PassesToNat env.context e)
    (he : e.typ = .int) {os : List Obligation}
    (h : (nodeObligations v limits n).Returns env os) :
    ∃ a, (lowerExpr v e).Returns env a ∧ natObligation e a ∈ os := by
  cases hn with
  | call hf hmem =>
    obtain ⟨callee', hcallee, there, -, nats, hnats, bs, -, pre, -, reads, -, down, -, rfl⟩ :=
      returns_ofCall.1 h
    cases hf.symm.trans hcallee
    obtain ⟨a, ha, ho⟩ := natArgs_mem hmem he hnats
    exact ⟨a, ha, by simp [ho]⟩
  | ctor hd hk hmem =>
    simp only [nodeObligations, ExprM.returns_bind, ExprM.returns_datatype,
      ExprM.returns_ofExcept] at h
    obtain ⟨d', hd', ctor', hctor', h⟩ := h
    cases hd.symm.trans hd'
    cases hk.symm.trans hctor'
    exact natArgs_mem hmem he h

/-- The check of an operation that passes an integer as a natural number asserts that it is one. -/
theorem check_passes {n e : Source.Expr} (hn : n.PassesToNat env.context e) (he : e.typ = .int)
    {ss : List IL.Stmt} (h : (check v limits frames n).Returns env ss) :
    ∃ a, (lowerExpr v e).Returns env a ∧
      assertUnder env.context.options.autoTriggers frames (natObligation e a) ⊆ ss := by
  obtain ⟨first, node, hnode, rfl⟩ : ∃ first node,
      (checkNode v limits frames n).Returns env node ∧ ss = first ++ node := by
    cases hn with
    | call =>
      simp only [check, ExprM.returns_bind, ExprM.returns_pure] at h
      obtain ⟨first, -, rest, -, node, hnode, rfl⟩ := h
      exact ⟨_, node, hnode, rfl⟩
    | ctor =>
      simp only [check, ExprM.returns_bind, ExprM.returns_pure] at h
      obtain ⟨first, -, node, hnode, rfl⟩ := h
      exact ⟨first, node, hnode, rfl⟩
  simp only [checkNode, ExprM.returns_bind, ExprM.returns_pure, ExprM.returns_options] at hnode
  obtain ⟨_, rfl, os, hos, fact, -, rfl⟩ := hnode
  obtain ⟨a, ha, ho⟩ := nodeObligations_nat hn he hos
  refine ⟨a, ha, fun t ht => ?_⟩
  exact List.mem_append_right _ (List.mem_append_left _ (List.mem_flatMap.2 ⟨_, ho, ht⟩))

end

/-! ## All flows that are checked -/

namespace Below

/-- A negative number. -/
def body : Source.Expr := .int ⟨default, .int⟩ (-1)

/-- A function of a natural number whose result is to be natural and is negative. -/
def function : Function :=
  { (default : Function) with
    name := ⟨"M", ["f"]⟩, params := [("n", .nat)], result := ("r", .nat), body := some body }

/-- A method with an integer result. -/
def method : Method :=
  { (default : Method) with name := ⟨"M", ["m"]⟩, outs := [("r", .int)] }

def context : Context := { functions := [function], methods := [method] }

def env : Env := { context }

def view : View := { heap := Prelude.heapVar, oldHeap := Prelude.heapVar }

/-- An integer variable. -/
def i : Source.Expr := .var ⟨default, .int⟩ "i"

/-- `var x: nat := i`. -/
def declaration : Source.Stmt := .varDecl default "x" .nat (some (.expr i))

/-- The declaration in a block, in a branch. -/
def branch : Source.Stmt := .ifElse default none (.block default [declaration]) none

/-- `f(i)`. -/
def call : Source.Expr := .call ⟨default, .nat⟩ ⟨"M", ["f"]⟩ none [i]

/-- `f(i) == f(i)`. -/
def same : Source.Expr := .binary ⟨default, .bool⟩ .eq call call

/-- `0 ≤ i && f(i) == f(i)`. -/
def equation : Source.Expr :=
  .binary ⟨default, .bool⟩ .and (.binary ⟨default, .bool⟩ .le (.int ⟨default, .int⟩ 0) i) same

/-- What the facts about the function are for: a well-formed state, and a call with a natural
number. -/
def called : IL.Expr :=
  .conj [Prelude.isGoodHeap (.var Naming.heapParam), .le (.nat 0) (.var "n"),
    function.apply .canCall [.var "n"]]

/-- A fact for all states and arguments. -/
def fact (matrix : IL.Expr) : IL.Expr :=
  .all [(Naming.heapParam, Prelude.heapSort), ("n", .int)]
    [[function.apply .normal [.var "n"], Prelude.isGoodHeap (.var Naming.heapParam)]]
    (.imp called matrix)

end Below

end ContractLowering
