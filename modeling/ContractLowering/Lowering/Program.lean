import ContractLowering.Lowering.Datatype
import ContractLowering.Lowering.Iterator
import ContractLowering.Prelude.Load

/-!
# Lowering programs

`lowerProgram` lowers a whole program after a prelude. The result holds every declaration, or
none: a program that is refused has a diagnostic and the empty program for its result.
-/

namespace ContractLowering

open Source

/-- Lowers a declaration if it is a datatype. -/
def Source.TopDecl.lowerDatatype : TopDecl → DeclM Unit
  | .datatype d => d.lower
  | .cls _ | .iterator _ => return ()

/-- Lowers a declaration unless it is a datatype. -/
def Source.TopDecl.lowerOther : TopDecl → DeclM Unit
  | .datatype _ => return ()
  | .cls c => c.lower
  | .iterator i => i.lower

/-- Lowers the declarations of a program: the datatypes, which others refer to, come first. -/
def lowerDecls (decls : List TopDecl) : DeclM Unit := do
  decls.forM TopDecl.lowerDatatype
  decls.forM TopDecl.lowerOther

/-- The lowered program after the declarations of a prelude. -/
def lowerAfter (program : Program) (options : Options) (prelude : String) :
    Except Fault IL.Program := do
  let decls ← (Prelude.load prelude).mapError fun e => Fault.rejected e.message
  let c ← (Context.ofProgram program options).mapError Fault.rejected
  let start : Progress := { emitted := IL.ProgramBuilder.empty.extend decls }
  let (result, s) := lowerDecls (program.flatMap (·.decls)) c start
  result
  return s.emitted.build

/-- Lowers a program after the text of a prelude. The diagnostics say why a program was refused;
input that was not resolved and typed as promised is broken. -/
def lowerProgram (program : Program) (options : Options) (prelude : String) :
    Except Broken (IL.Program × Diagnostics) :=
  match lowerAfter program options prelude with
  | .ok lowered => .ok (lowered, [])
  | .error (.rejected m) => .ok ([], Diagnostics.report [] m)
  | .error (.broken b) => .error b

end ContractLowering
