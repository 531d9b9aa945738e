import ContractLowering.IL.Program
import ContractLowering.Proofs.IL.Rename

/-!
# Programs without triggers

Triggers tell a prover where to instantiate a quantifier and carry no meaning. Erasing leaves every
quantifier of a program with an empty list of triggers and changes nothing else.

Renaming forgets triggers, so an expression is erased by renaming nothing, and what is known of
renaming and building carries over.
-/

namespace ContractLowering.IL

/-- The expression without triggers. -/
abbrev Expr.erase (e : Expr) : Expr := e.ren id

/-- Bound values without triggers. -/
abbrev Expr.eraseBindings (bs : List (String × Expr)) : List (String × Expr) :=
  bs.map fun b => (b.1, b.2.erase)

/-- An expression means the same without triggers. -/
theorem Expr.eval_erase {M : Model} {old ρ : M.Valuation} (e : Expr) :
    e.erase.eval old ρ = e.eval old ρ :=
  eval_ren e (Avoids.id fun _ => True) (boundIn_true e)

/-- The clause without triggers. -/
def Clause.erase (c : Clause) : Clause := { c with expr := c.expr.erase }

@[simp] theorem Clause.erase_assumed (e : Expr) : (assumed e).erase = assumed e.erase := rfl

@[simp] theorem Clause.erase_checked (msg : Message) (e : Expr) :
    (checked msg e).erase = checked msg e.erase := rfl

mutual

/-- The statement without triggers. -/
def Stmt.erase : Stmt → Stmt
  | .assume e => .assume e.erase
  | .assert msg e => .assert msg e.erase
  | .havoc x => .havoc x
  | .assign x e => .assign x e.erase
  | .call proc args outs => .call proc (args.map Expr.erase) outs
  | .ifElse guard thn els => .ifElse (guard.map Expr.erase) (eraseList thn) (eraseList els)
  | .loop guard invariants body =>
    .loop (guard.map Expr.erase) (invariants.map Clause.erase) (eraseList body)
  | .leave label => .leave label
  | .block label body => .block label (eraseList body)
  | .ret => .ret

/-- Statements without triggers. -/
def Stmt.eraseList : List Stmt → List Stmt
  | [] => []
  | s :: ss => s.erase :: eraseList ss

end

namespace Stmt

theorem eraseList_eq (ss : List Stmt) : eraseList ss = ss.map erase := by
  induction ss with
  | nil => rfl
  | cons s ss ih => exact congrArg (s.erase :: ·) ih

@[simp] theorem erase_assume (e : Expr) : (assume e).erase = .assume e.erase :=
  rfl

@[simp] theorem erase_assert (msg : Message) (e : Expr) :
    (assert msg e).erase = .assert msg e.erase := rfl

@[simp] theorem erase_havoc (x : String) : (havoc x).erase = .havoc x := rfl

@[simp] theorem erase_assign (x : String) (e : Expr) :
    (assign x e).erase = .assign x e.erase := rfl

@[simp] theorem erase_call (proc : String) (args : List Expr) (outs : List String) :
    (call proc args outs).erase = .call proc (args.map Expr.erase) outs := rfl

@[simp] theorem erase_ifElse (guard : Option Expr) (thn els : List Stmt) :
    (ifElse guard thn els).erase =
      .ifElse (guard.map Expr.erase) (thn.map erase) (els.map erase) := by
  rw [← eraseList_eq, ← eraseList_eq]
  rfl

@[simp] theorem erase_loop (guard : Option Expr) (invariants : List Clause) (body : List Stmt) :
    (loop guard invariants body).erase =
      .loop (guard.map Expr.erase) (invariants.map Clause.erase) (body.map erase) := by
  rw [← eraseList_eq]
  rfl

@[simp] theorem erase_leave (label : Option String) : (leave label).erase = .leave label := rfl

@[simp] theorem erase_block (label : Option String) (body : List Stmt) :
    (block label body).erase = .block label (body.map erase) := by
  rw [← eraseList_eq]
  rfl

@[simp] theorem erase_ret : ret.erase = .ret := rfl

end Stmt

/-- The declaration without triggers. -/
def Decl.erase : Decl → Decl
  | .fact name e => .fact name e.erase
  | .procedure p => .procedure
    { p with requires := p.requires.map Clause.erase, ensures := p.ensures.map Clause.erase }
  | .implementation i => .implementation { i with body := i.body.map Stmt.erase }
  | d => d

/-- The collected declarations without triggers. -/
def ProgramBuilder.erase (b : ProgramBuilder) : ProgramBuilder :=
  { b with rev := b.rev.map Decl.erase }

@[simp] theorem ProgramBuilder.erase_push (b : ProgramBuilder) (d : Decl) :
    (b.push d).erase = b.erase.push d.erase := rfl

@[simp] theorem ProgramBuilder.erase_extend (b : ProgramBuilder) (ds : List Decl) :
    (b.extend ds).erase = b.erase.extend (ds.map Decl.erase) := by
  induction ds generalizing b with
  | nil => rfl
  | cons d ds ih => exact ih (b.push d)

theorem ProgramBuilder.map_erase_build (b : ProgramBuilder) :
    b.build.map Decl.erase = b.erase.build :=
  List.map_reverse

end ContractLowering.IL
