/-!
# S-expressions

The tree form of the text format. `SExpr.render` writes a tree on one line with single blanks.
-/

namespace ContractLowering

/-- A tree of atoms. -/
inductive SExpr where
  | atom (s : String)
  | list (es : List SExpr)
deriving Inhabited

namespace SExpr

mutual

/-- The text of a tree: a list is written in parentheses with one blank between its elements. -/
def render : SExpr → String
  | .atom s => s
  | .list es => "(" ++ " ".intercalate (renderList es) ++ ")"

/-- The texts of several trees. -/
def renderList : List SExpr → List String
  | [] => []
  | e :: es => e.render :: renderList es

end

end SExpr

end ContractLowering
