import ContractLowering.IL.Reader
import ContractLowering.Prelude.Names
import ContractLowering.Prelude.Text

/-!
# Loading a prelude

A prelude is usable when its text reads as declarations and every required name is declared with
its kind. Of several declarations of one name the last counts.
-/

namespace ContractLowering.Prelude

open IL

/-- Why a text is no usable prelude. -/
inductive LoadError where
  | malformed (e : SExpr.SyntaxError)
  | declaration (e : ReadError)
  | wrongKind (name : String) (found required : Kind)
  | missing (name : String)
deriving Inhabited

/-- The message of an unusable prelude. -/
def LoadError.message : LoadError → Message
  | .malformed e => .bare ("prelude is not a well-formed S-expression: " ++ e.render)
  | .declaration e => .bare ("malformed prelude declaration: " ++ e.render)
  | .wrongKind name found required =>
    .bare ("prelude declares `" ++ name ++ "` as " ++ found.word
      ++ ", but the translator requires " ++ required.word)
  | .missing name => .bare ("prelude is missing the declaration of `" ++ name ++ "`")

/-- The name a declaration introduces as a sort, constant, variable or function. -/
def kindOf? : Decl → Option (String × Kind)
  | .sort x => some (x, .sort)
  | .const x _ | .uniqueConst x _ => some (x, .const)
  | .var x _ => some (x, .var)
  | .func x args _ => some (x, .func args.length)
  | .fact .. | .procedure _ | .implementation _ => none

/-- The kinds of declared names, later declarations first. -/
def kinds (ds : List Decl) : List (String × Kind) := (ds.filterMap kindOf?).reverse

/-- Accepts declarations that give a name its required kind. -/
def require (declared : List (String × Kind)) (name : String) (kind : Kind) :
    Except LoadError Unit :=
  match declared.lookup name with
  | some found => if found = kind then .ok () else .error (.wrongKind name found kind)
  | none => .error (.missing name)

/-- Accepts declarations that give every required name its kind. -/
def requireAll (ds : List Decl) : Except LoadError Unit :=
  let declared := kinds ds
  required.forM fun r => require declared r.1 r.2

/-- Reads the text of a prelude. -/
def readDecls (text : String) : Except LoadError (List Decl) :=
  match SExpr.readForest text with
  | .error e => .error (.malformed e)
  | .ok es => match Decl.ofSExprs es with
    | .error e => .error (.declaration e)
    | .ok ds => .ok ds

/-- The declarations of a usable prelude. -/
def load (text : String) : Except LoadError (List Decl) := do
  let ds ← readDecls text
  requireAll ds
  return ds

end ContractLowering.Prelude
