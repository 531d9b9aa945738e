import ContractLowering.Source.Typ

/-!
# Names of lowered declarations

Source identifiers consist of letters, digits, underscores and points. Every generated name holds
at least one of `$`, `%` and `/`, except for the plain names of paths, fields and constructors,
which join their parts with points. Source locals keep their names.
-/

namespace ContractLowering

open Source

/-- The functions that one source function becomes. Limited and unrolled variants exist for
recursive functions only: the first never unfolds, the second unfolds one step further. -/
inductive Layer where
  | canCall
  | limited
  | normal
  | unrolled
deriving DecidableEq, Inhabited

/-- The procedures that one source method becomes. -/
inductive ProcKind where
  | checkWellformed
  | interModuleCall
  | intraModuleCall
  | coCall
  | impl
deriving DecidableEq, Inhabited

namespace Naming

/-- The plain name of a path. -/
def path (p : Path) : String := ".".intercalate (p.module :: p.segments)

/-- The constant that stands for a class. -/
def cls (p : Path) : String := "class%" ++ path p

/-- The constant or function of a field. -/
def field (f : FieldId) : String := path f.owner ++ "." ++ f.name

/-- The function of a constructor. -/
def ctor (datatype : Path) (c : String) : String := path datatype ++ "." ++ c

/-- The constant that identifies a constructor. -/
def ctorId (datatype : Path) (c : String) : String := "ctor%" ++ ctor datatype c

/-- The test for a constructor. -/
def isCtor (datatype : Path) (c : String) : String := "is%" ++ ctor datatype c

/-- The destructor for a field of a constructor. -/
def destructor (datatype : Path) (c field : String) : String := ctor datatype c ++ "/" ++ field

/-- What stands before a function's name in a layer. -/
def layerMark : Layer → String
  | .canCall => "canCall%"
  | .limited => "limited%"
  | .normal => ""
  | .unrolled => "unrolled%"

/-- The function of a source function in a layer. -/
def layered (f : Path) (layer : Layer) : String := layerMark layer ++ path f

/-- What stands before a method's name in a procedure. -/
def procMark : ProcKind → String
  | .checkWellformed => "CheckWellformed$$"
  | .interModuleCall => "InterModuleCall$$"
  | .intraModuleCall => "IntraModuleCall$$"
  | .coCall => "CoCall$$"
  | .impl => "Impl$$"

/-- The procedure of a method. -/
def proc (m : Path) (kind : ProcKind) : String := procMark kind ++ path m

/-! ## Locals -/

/-- A variable renamed for the `n`-th time. -/
def renamed (x : String) (n : Nat) : String := x ++ "%" ++ toString n

def temp (n : Nat) : String := "tmp%" ++ toString n
def preLoopHeap (n : Nat) : String := "$PreLoopHeap%" ++ toString n
def loopWitness (n : Nat) : String := "$w%" ++ toString n
def loopFrame (n : Nat) : String := "$_Frame%" ++ toString n
def decreases (n i : Nat) : String := "$decr%" ++ toString n ++ "%" ++ toString i
def decreasesInit (n i : Nat) : String := "$decr_init%" ++ toString n ++ "%" ++ toString i
def callArg (n : Nat) : String := "$in%" ++ toString n
def callOut (n : Nat) : String := "$out%" ++ toString n
def newObject (n : Nat) : String := "$nw%" ++ toString n
def prevHeap (n : Nat) : String := "$prevHeap%" ++ toString n

/-! ## Fixed names -/

def this : String := "this"
def heapParam : String := "$h"
def heapParamOld : String := "$h0"
def heapParamNew : String := "$h1"
def frame : String := "$_Frame"
def boxVar : String := "$b"
def objVar : String := "$o"
def fieldVar : String := "$f"
def indexVar : String := "$i"
def yieldCount : String := "$_yieldCount"

/-- The out-parameter that tells whether an iterator has another value. -/
def more : String := "more"

/-! ## Members of the class of an iterator -/

def iterNew : String := "_new"
def iterModifies : String := "_modifies"
def iterReads : String := "_reads"
def iterCtor : String := "_ctor"
def iterMoveNext : String := "MoveNext"

/-- The field that holds the values yielded so far for a yield-parameter. -/
def history (yieldParam : String) : String := yieldParam ++ "s"

end Naming

end ContractLowering
