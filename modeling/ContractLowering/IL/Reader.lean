import ContractLowering.IL.Program
import ContractLowering.SExpr.Reader

/-!
# Reading expressions and declarations

Expressions and declarations have a text form as S-expressions. Reading builds exactly the tree
that is written, without simplification. A list whose head is a special word but whose shape is
not that word's is read as an application of the word, provided the head is no operator.
-/

namespace ContractLowering.IL

/-- Why a text holds no declarations or a tree no expression. -/
inductive ReadError where
  | malformed (e : SExpr.SyntaxError)
  | expected (what : String) (found : SExpr)
  | expectedPattern (found : SExpr)
deriving Inhabited

/-- The text of a reading error. -/
def ReadError.render : ReadError → String
  | .malformed e => e.render
  | .expected what found => "expected " ++ what ++ ", found: " ++ found.render
  | .expectedPattern found => "expected quantifier pattern, found " ++ found.render

/-- The characters of a symbol. -/
def isSymbolChar (c : Char) : Bool :=
  c.isAlphanum || "~!@$%^&*_-+=<>.?/".toList.contains c

/-- Whether a text is a symbol: not empty, and of symbol characters only. -/
def isSymbol (s : String) : Bool := !s.isEmpty && s.toList.all isSymbolChar

/-- Whether a text is a numeral: not empty, and of digits only. -/
def isNumeral (s : String) : Bool := !s.isEmpty && s.toList.all Char.isDigit

/-- The sort that an atom names. -/
def Srt.ofName (s : String) : Srt :=
  if s == "Bool" then .bool
  else if s == "Int" then .int
  else if s == "Lambda" then .lambda
  else .named s

/-- Reads a sort. -/
def Srt.ofSExpr : SExpr → Except ReadError Srt
  | .atom s => if isSymbol s then .ok (.ofName s) else .error (.expected "type" (.atom s))
  | e => .error (.expected "type" e)

/-- Reads the sorts of a list, in order. -/
def Srt.ofSExprs (es : List SExpr) : Except ReadError (List Srt) := es.mapM Srt.ofSExpr

/-- The operator of two operands that a head names. -/
def BinOp.ofHead? (s : String) : Option BinOp :=
  match s with
  | "=>" => some .implies
  | "=" => some .eq
  | "<=" => some .le
  | ">=" => some .ge
  | "<" => some .lt
  | ">" => some .gt
  | "div" => some .div
  | "mod" => some .mod
  | _ => none

/-- The operator of any number of operands that a head names. -/
def MultiOp.ofHead? (s : String) : Option MultiOp :=
  match s with
  | "and" => some .and
  | "or" => some .or
  | "+" => some .add
  | "-" => some .sub
  | "*" => some .mul
  | "distinct" => some .distinct
  | _ => none

/-- The expression that a plain list `whole` with this head and these arguments denotes. -/
def Expr.ofHead (whole : SExpr) (head : SExpr) (args : List Expr) : Except ReadError Expr :=
  match head with
  | .list _ => .error (.expected "expression" whole)
  | .atom s =>
    match s, args with
    | "not", [a] => .ok (.not a)
    | "ite", [c, a, b] => .ok (.ite c a b)
    | _, _ =>
      match BinOp.ofHead? s, MultiOp.ofHead? s, args with
      | some op, _, [a, b] => .ok (.binary op a b)
      | some _, _, _ => .error (.expected "expression" whole)
      | none, some op, _ => .ok (.multi op args)
      | none, none, _ =>
        if isSymbol s then .ok (.app s args) else .error (.expected "expression" whole)

/-- Reads an atom. -/
def Expr.ofAtom (s : String) : Except ReadError Expr :=
  if s == "true" then .ok (.bool true)
  else if s == "false" then .ok (.bool false)
  else if isNumeral s then .ok (.num s)
  else if isSymbol s then .ok (.var s)
  else .error (.expected "expression" (.atom s))

/-- Reads a variable with its sort. -/
def Binder.ofSExpr : SExpr → Except ReadError Binder
  | .list [.atom x, s] =>
    if isSymbol x then (Srt.ofSExpr s).map (x, ·)
    else .error (.expected "binder (...)" (.list [.atom x, s]))
  | e => .error (.expected "binder (...)" e)

/-- Reads variables with their sorts, in order. -/
def Binder.ofSExprs (es : List SExpr) : Except ReadError (List Binder) := es.mapM Binder.ofSExpr

mutual

/-- Reads an expression. The body of a quantifier may be annotated with patterns. -/
def Expr.ofSExpr : SExpr → Except ReadError Expr
  | .atom s => Expr.ofAtom s
  | .list [] => .error (.expected "expression" (.list []))
  | .list [.atom "old", .atom x] =>
    if isSymbol x then .ok (.old x) else .error (.expected "expression" (.atom x))
  | .list [.atom "let", .list bs, e] => do
    let bindings ← Expr.bindingsOfSExprs bs
    return .letIn bindings (← Expr.ofSExpr e)
  | .list [.atom "forall", .list bs, .list (.atom "!" :: body :: patterns)] => do
    let binders ← Binder.ofSExprs bs
    let triggers ← Expr.triggersOfSExprs patterns
    return .quant .all binders triggers (← Expr.ofSExpr body)
  | .list [.atom "forall", .list bs, e] => do
    let binders ← Binder.ofSExprs bs
    return .quant .all binders [] (← Expr.ofSExpr e)
  | .list [.atom "exists", .list bs, .list (.atom "!" :: body :: patterns)] => do
    let binders ← Binder.ofSExprs bs
    let triggers ← Expr.triggersOfSExprs patterns
    return .quant .ex binders triggers (← Expr.ofSExpr body)
  | .list [.atom "exists", .list bs, e] => do
    let binders ← Binder.ofSExprs bs
    return .quant .ex binders [] (← Expr.ofSExpr e)
  | .list [.atom "lambda", .list bs, e] => do
    let binders ← Binder.ofSExprs bs
    return .lambda binders (← Expr.ofSExpr e)
  | .list (.atom "apply" :: s :: f :: args) => do
    let result ← Srt.ofSExpr s
    let f ← Expr.ofSExpr f
    return .applyLambda result f (← Expr.ofSExprs args)
  | .list (head :: args) => do
    let es ← Expr.ofSExprs args
    Expr.ofHead (.list (head :: args)) head es
termination_by structural e => e

/-- Reads the expressions of a list, in order. -/
def Expr.ofSExprs : List SExpr → Except ReadError (List Expr)
  | [] => .ok []
  | e :: es => do
    let e ← Expr.ofSExpr e
    return e :: (← Expr.ofSExprs es)
termination_by structural es => es

/-- Reads the bindings of a let, in order. -/
def Expr.bindingsOfSExprs : List SExpr → Except ReadError (List (String × Expr))
  | [] => .ok []
  | .list [.atom x, e] :: bs =>
    if isSymbol x then do
      let e ← Expr.ofSExpr e
      return (x, e) :: (← Expr.bindingsOfSExprs bs)
    else .error (.expected "binder (...)" (.list [.atom x, e]))
  | b :: _ => .error (.expected "binder (...)" b)
termination_by structural es => es

/-- Reads the patterns of a quantifier: the word `:pattern` and a list of terms in turn. A last
word without its list is accepted. -/
def Expr.triggersOfSExprs : List SExpr → Except ReadError (List Trigger)
  | [] => .ok []
  | [.atom ":pattern"] => .ok []
  | .atom ":pattern" :: .list ts :: rest => do
    let trigger ← Expr.ofSExprs ts
    return trigger :: (← Expr.triggersOfSExprs rest)
  | .atom ":pattern" :: e :: _ => .error (.expectedPattern e)
  | e :: _ => .error (.expectedPattern e)
termination_by structural es => es

end

/-- Reads a declaration. -/
def Decl.ofSExpr : SExpr → Except ReadError Decl
  | .list [.atom "axiom", e] => (Expr.ofSExpr e).map (.fact none)
  | .list [.atom word, .atom x] =>
    if word == "declare-sort" && isSymbol x then .ok (.sort x)
    else .error (.expected "declaration" (.list [.atom word, .atom x]))
  | .list [.atom word, .atom x, e] =>
    if !isSymbol x then .error (.expected "declaration" (.list [.atom word, .atom x, e]))
    else if word == "declare-const" then (Srt.ofSExpr e).map (.const x)
    else if word == "declare-unique-const" then (Srt.ofSExpr e).map (.uniqueConst x)
    else if word == "declare-var" then (Srt.ofSExpr e).map (.var x)
    else if word == "axiom" then (Expr.ofSExpr e).map (.fact (some x))
    else .error (.expected "declaration" (.list [.atom word, .atom x, e]))
  | .list [.atom word, .atom x, .list args, result] =>
    if word == "declare-fun" && isSymbol x then do
      let args ← Srt.ofSExprs args
      return .func x args (← Srt.ofSExpr result)
    else .error (.expected "declaration" (.list [.atom word, .atom x, .list args, result]))
  | e => .error (.expected "declaration" e)

/-- Reads declarations, in order. -/
def Decl.ofSExprs (es : List SExpr) : Except ReadError (List Decl) := es.mapM Decl.ofSExpr

/-- Reads a text that holds any number of declarations. -/
def Decl.parse (text : String) : Except ReadError (List Decl) :=
  match SExpr.readForest text with
  | .error e => .error (.malformed e)
  | .ok es => Decl.ofSExprs es

/-- Reads a text that holds one expression. -/
def Expr.parse (text : String) : Except ReadError Expr :=
  match SExpr.readForest text with
  | .error e => .error (.malformed e)
  | .ok [e] => Expr.ofSExpr e
  | .ok es => .error (.expected "expression" (.list es))

end ContractLowering.IL
