import ContractLowering.IL.Expr
import ContractLowering.Message

/-!
# Statements, declarations and programs

Procedures carry contracts whose clauses are either free (assumed, never checked) or checked with
a message for the case that the prover fails. A program is its list of declarations, and a
`ProgramBuilder` collects them in order.
-/

namespace ContractLowering.IL

/-- A requires, ensures or invariant clause. -/
structure Clause where
  free : Bool
  expr : Expr
  msg : Option Message
deriving Inhabited

namespace Clause

/-- A clause that is assumed and never checked. -/
def assumed (e : Expr) : Clause := ⟨true, e, none⟩

/-- A clause that is checked, with the message of its failure. -/
def checked (msg : Message) (e : Expr) : Clause := ⟨false, e, some msg⟩

end Clause

/-- Statements. A missing guard is a free choice; a loop havocs what its body assigns. -/
inductive Stmt where
  | assume (e : Expr)
  | assert (msg : Message) (e : Expr)
  | havoc (x : String)
  | assign (x : String) (e : Expr)
  | call (proc : String) (args : List Expr) (outs : List String)
  | ifElse (guard : Option Expr) (thn els : List Stmt)
  | loop (guard : Option Expr) (invariants : List Clause) (body : List Stmt)
  | leave (label : Option String)
  | block (label : Option String) (body : List Stmt)
  | ret
deriving Inhabited

/-- A procedure signature with its contract. -/
structure Procedure where
  name : String
  params : List Binder
  outs : List Binder
  requires : List Clause
  modifies : List String
  ensures : List Clause
deriving Inhabited

/-- A body for the procedure of the same name. -/
structure Implementation where
  name : String
  params : List Binder
  outs : List Binder
  locals : List Binder
  body : List Stmt
deriving Inhabited

/-- Declarations. Unique constants of one sort are pairwise distinct. -/
inductive Decl where
  | sort (x : String)
  | const (x : String) (s : Srt)
  | uniqueConst (x : String) (s : Srt)
  | func (x : String) (args : List Srt) (result : Srt)
  | var (x : String) (s : Srt)
  | fact (name : Option String) (e : Expr)
  | procedure (p : Procedure)
  | implementation (i : Implementation)
deriving Inhabited

/-- The name a declaration introduces, if it introduces one. -/
def Decl.name? : Decl → Option String
  | .sort x | .const x _ | .uniqueConst x _ | .func x _ _ | .var x _ => some x
  | .fact name _ => name
  | .procedure p => some p.name
  | .implementation _ => none

/-- A program is its declarations, in order. -/
abbrev Program := List Decl

/-- An append-only collection of declarations, newest first. -/
structure ProgramBuilder where
  rev : List Decl := []
  size : Nat := 0
deriving Inhabited

namespace ProgramBuilder

/-- The builder without declarations. -/
def empty : ProgramBuilder := {}

/-- Appends one declaration. -/
def push (b : ProgramBuilder) (d : Decl) : ProgramBuilder := ⟨d :: b.rev, b.size + 1⟩

/-- Appends declarations in order. -/
def extend (b : ProgramBuilder) (ds : List Decl) : ProgramBuilder := ds.foldl push b

/-- Whether some declaration introduced the name. -/
def declares (b : ProgramBuilder) (x : String) : Bool := b.rev.any fun d => d.name? == some x

/-- Whether nothing was added yet. -/
def isEmpty (b : ProgramBuilder) : Bool := b.rev.isEmpty

/-- The declarations in the order they were added. -/
def build (b : ProgramBuilder) : Program := b.rev.reverse

end ProgramBuilder

end ContractLowering.IL
