import ContractLowering.Broken
import ContractLowering.CallGraph
import ContractLowering.Options
import ContractLowering.Source.IteratorClass

/-!
# The declarations a lowering refers to

`Context.ofProgram` collects the declarations of a program, with the class of every iterator
among the classes, and refuses a program that declares something twice. Of several fields with
one identity the last counts.
-/

namespace ContractLowering

open Source

/-- The declarations of a program with its call graph, and the options of the lowering. -/
structure Context where
  functions : List Function := []
  methods : List Method := []
  classes : List Source.Class := []
  datatypes : List Datatype := []
  iterators : List Iterator := []
  fields : List Field := []
  calls : CallGraph := default
  options : Options := {}
deriving Inhabited

namespace Context

/-- The error of a repeated declaration. -/
def duplicate (span : Span) (p : Path) : Message :=
  .error ("duplicate declaration of `" ++ Naming.path p ++ "`") span

/-- Adds a datatype. -/
def addDatatype (c : Context) (d : Datatype) : Except Message Context :=
  if c.datatypes.any (·.path = d.path) then .error (duplicate d.span d.path)
  else .ok { c with datatypes := d :: c.datatypes }

/-- Adds an iterator, apart from its class. -/
def addIterator (c : Context) (i : Iterator) : Except Message Context :=
  if c.iterators.any (·.path = i.path) then .error (duplicate i.span i.path)
  else .ok { c with iterators := i :: c.iterators }

/-- Adds a function. -/
def addFunction (c : Context) (f : Function) : Except Message Context :=
  if c.functions.any (·.name = f.name) then .error (duplicate f.span f.name)
  else .ok { c with functions := f :: c.functions }

/-- Adds a method. -/
def addMethod (c : Context) (m : Method) : Except Message Context :=
  if c.methods.any (·.name = m.name) then .error (duplicate m.span m.name)
  else .ok { c with methods := m :: c.methods }

/-- Adds a class with its members. -/
def addClass (c : Context) (k : Source.Class) : Except Message Context := do
  let c := { c with fields := k.fields.reverse ++ c.fields }
  let c ← k.functions.foldlM addFunction c
  let c ← k.methods.foldlM addMethod c
  if c.classes.any (·.path = k.path) then .error (duplicate k.span k.path)
  else .ok { c with classes := k :: c.classes }

/-- Adds a declaration that is no class. -/
def addOther (c : Context) : TopDecl → Except Message Context
  | .cls _ => .ok c
  | .datatype d => c.addDatatype d
  | .iterator i => c.addIterator i

/-- The class of a declaration that has one. -/
def classOf? : TopDecl → Option Source.Class
  | .cls k => some k
  | .datatype _ => none
  | .iterator i => some i.toClass

/-- The calls between the members. -/
def callEdges (c : Context) : List CallEdge :=
  c.functions.flatMap Function.callEdges ++ c.methods.flatMap Method.callEdges
    ++ c.iterators.flatMap Iterator.callEdges

/-- The functions, methods and iterators by their names. -/
def members (c : Context) : List Path :=
  c.functions.map (·.name) ++ c.methods.map (·.name) ++ c.iterators.map (·.path)

/-- The context of a program. Datatypes and iterators are added first, then classes with their
members. -/
def ofProgram (program : Program) (options : Options) : Except Message Context := do
  let decls := program.flatMap (·.decls)
  let c ← decls.foldlM addOther { options }
  let c ← (decls.filterMap classOf?).foldlM addClass c
  return { c with calls := .ofCalls c.members c.callEdges }

/-! ## Looking declarations up -/

/-- The value, or what is broken when there is none. -/
def orBroken {α : Type} (found : Option α) (b : Broken) : Except Broken α :=
  match found with
  | some a => .ok a
  | none => .error b

def function (c : Context) (p : Path) : Except Broken Function :=
  orBroken (c.functions.find? (·.name = p)) (.unknownFunction p)

def method (c : Context) (p : Path) : Except Broken Method :=
  orBroken (c.methods.find? (·.name = p)) (.unknownMethod p)

def cls (c : Context) (p : Path) : Except Broken Source.Class :=
  orBroken (c.classes.find? (·.path = p)) (.unknownClass p)

def datatype (c : Context) (p : Path) : Except Broken Datatype :=
  orBroken (c.datatypes.find? (·.path = p)) (.unknownDatatype p)

def field (c : Context) (f : FieldId) : Except Broken Field :=
  orBroken (c.fields.find? (·.id = f)) (.unknownField f)

def iterator? (c : Context) (p : Path) : Option Iterator := c.iterators.find? (·.path = p)

end Context

/-- The constructor of a datatype with a name. -/
def Source.Datatype.ctor (d : Datatype) (c : String) : Except Broken Ctor :=
  Context.orBroken (d.ctors.find? (·.name == c)) (.missingCtor c)

/-- The field of a constructor with a name. -/
def Source.Ctor.field (c : Ctor) (f : String) : Except Broken Binder :=
  Context.orBroken (c.fields.find? (·.1 == f)) (.missingCtorField f c.name)

end ContractLowering
