import ContractLowering.Lowering.Class
import ContractLowering.Proofs.Standard.Typed
import Mathlib.Order.FixedPoints

/-!
# Datatypes and classes in the standard model

A family of datatypes and classes, with the declarations that are to be satisfied, fixes what the
standard model leaves open (`Family.interp`). A value of a datatype is the constructor applied to
the boxes of its arguments. Which of them are allocated in a heap is the least predicate that
allows a constructed value as soon as its fields have their types (`Family.allocated_iff`); the
types of the fields may mention the datatype again, also below collections. A heap is good if the
fields of allocated objects have their types.
-/

namespace ContractLowering.Standard

open IL Source Prelude

/-- A valuation with names bound, of which later ones hide earlier ones. -/
def bound (l : List (String × Val)) (ρ : String → Val) : String → Val :=
  l.foldl (fun ρ p => Function.update ρ p.1 p.2) ρ

/-- The value of a constant of a sort. Constants of classes, constructors and fields stand for
themselves. -/
noncomputable def constant (s : Srt) (x : String) : Val :=
  if s = classNameSort then .cls x
  else if s = ctorIdSort then .ctorId x
  else if s = fieldSort then .field (.named x)
  else .default s

/-- The constant or variable that a declaration introduces, with its sort. -/
def constant? : Decl → Option (String × Srt)
  | .const x s | .uniqueConst x s | .var x s => some (x, s)
  | _ => none

/-- The function that a declaration introduces, with the sort of its values. -/
def function? : Decl → Option (String × Srt)
  | .func f _ s => some (f, s)
  | _ => none

/-- Datatypes and classes with the fields that are declared and all declarations. -/
structure Family where
  context : Context
  datatypes : List Datatype
  classes : List Source.Class
  handles : List FieldHandle
  decls : List Decl

/-- The boxes of arguments hold values of the sorts of the fields. -/
def Fits (k : Ctor) (args : List ℕ) : Prop :=
  List.Forall₂ (fun f n => (unboxed f.2 n).toCode = n) k.fields args

/-- The box of a field among the boxes of arguments. -/
def argument (k : Ctor) (f : String) (args : List ℕ) : ℕ :=
  (((k.fields.map (·.1)).zip args).lookup f).getD 0

/-- A valuation in which the variables of the fields of a constructor have the values in boxes. -/
noncomputable def filled (k : Ctor) (args : List ℕ) (ρ : String → Val) : String → Val :=
  bound ((k.fields.zip args).map fun p => (p.1.1 ++ "%a", unboxed p.1.2 p.2)) ρ

namespace Family

variable (F : Family)

/-- The constructors with the paths of their datatypes. -/
def ctors : List (Path × Ctor) := F.datatypes.flatMap fun d => d.ctors.map (d.path, ·)

/-- The values of constants. -/
noncomputable def constants (x : String) : Val :=
  constant (((F.decls.filterMap constant?).lookup x).getD .lambda) x

open Classical in
/-- The constant of the constructor that built a value, if one did. -/
noncomputable def ctorId (d : Data) : String :=
  if ∃ e ∈ F.ctors, Naming.ctor e.1 e.2.name = d.ctor ∧ Fits e.2 d.args then "ctor%" ++ d.ctor
  else ""

/-- The functions of a constructor: itself, its test and its destructors. -/
noncomputable def symbols (e : Path × Ctor) : List (String × (List Val → Val)) :=
  (Naming.ctor e.1 e.2.name, fun args => .data ⟨Naming.ctor e.1 e.2.name, args.map Val.toCode⟩) ::
  (Naming.isCtor e.1 e.2.name, fun args =>
    .ofProp (F.ctorId (args.headD .lambda).toData = Naming.ctorId e.1 e.2.name)) ::
  e.2.fields.map fun f => (Naming.destructor e.1 e.2.name f.1, fun args =>
    unboxed f.2 (argument e.2 f.1 (args.headD .lambda).toData.args))

/-- The functions that the prelude does not declare. Functions of fields have one value. -/
noncomputable def func (f : String) (args : List Val) : Val :=
  match (F.ctors.flatMap F.symbols).lookup f with
  | some g => g args
  | none => .default (((F.decls.filterMap function?).lookup f).getD .lambda)

/-- The valuation under which the fields of a constructed value are typed in a heap. -/
noncomputable def scope (k : Ctor) (args : List ℕ) (h : Store) : String → Val :=
  Function.update (filled k args F.constants) Naming.heapParam (.heap h)

/-- A constructed value is allocated if its fields have their types, where values of datatypes
in them are allocated by a predicate. -/
noncomputable def allocation : (Data → Store → Prop) →o (Data → Store → Prop) where
  toFun A d h := ∃ e ∈ F.ctors, Naming.ctor e.1 e.2.name = d.ctor ∧ Fits e.2 d.args ∧
    ∀ p ∈ e.2.fields.zip d.args,
      Typed F.context F.func A (F.scope e.2 d.args h) h p.1.2 (unboxed p.1.2 p.2)
  monotone' := by
    rintro A B hAB d h ⟨e, he, hname, hfits, hfields⟩
    exact ⟨e, he, hname, hfits, fun p hp => (hfields p hp).mono fun d => hAB d h⟩

/-- Values of datatypes that are allocated in a heap. -/
noncomputable def allocated : Data → Store → Prop := F.allocation.lfp

theorem allocated_iff {d : Data} {h : Store} : F.allocated d h ↔
    ∃ e ∈ F.ctors, Naming.ctor e.1 e.2.name = d.ctor ∧ Fits e.2 d.args ∧
      ∀ p ∈ e.2.fields.zip d.args,
        Typed F.context F.func F.allocated (F.scope e.2 d.args h) h p.1.2 (unboxed p.1.2 p.2) :=
  iff_of_eq (congrFun (congrFun F.allocation.map_lfp.symm d) h)

/-- The valuation under which the field of an object is typed in a heap. -/
noncomputable def location (h : Store) (r : Ref) : String → Val :=
  Function.update (Function.update F.constants Naming.heapParam (.heap h)) Naming.objVar (.ref r)

/-- The value of a field of an object in a heap. -/
noncomputable def fieldValue (hd : FieldHandle) (h : Store) (r : Ref) : Val :=
  if hd.isMutable then unboxed hd.typ (h.get r (F.location h r hd.name).toFld)
  else F.func hd.name [.ref r]

/-- The fields of the objects of a class that are allocated in a heap have their types. -/
def Good (h : Store) : Prop :=
  ∀ k ∈ F.classes, ∀ f ∈ k.fields, ∀ hd ∈ F.handles, hd.id = f.id → ∀ r : Ref,
    .ref r ≠ F.location h r "null" → IsAllocated (F.location h r) h (.ref r) →
    .cls r.cls = F.location h r (Naming.cls k.path) →
    Typed F.context F.func F.allocated (F.location h r) h f.typ (F.fieldValue hd h r)

/-- The constant of the class that declares a field. -/
def owner (x : String) : String :=
  ((F.handles.find? (·.name = x)).map fun hd => Naming.cls hd.id.owner).getD ""

/-- What the family adds to the standard model. -/
noncomputable def interp : Interp := ⟨F.func, F.owner, F.ctorId, F.allocated, F.Good⟩

end Family

end ContractLowering.Standard
