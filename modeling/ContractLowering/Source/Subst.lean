import ContractLowering.Naming
import ContractLowering.Source.FreeVars
import ContractLowering.Source.Subexpr

/-!
# Substitution

A `Subst` replaces variables and the receiver by expressions. `Expr.subst?` applies it without
capture and says `none` when there was nothing to do, so that an expression in which no key
occurs stays as it is. Under a binder only the keys that occur free in its scope are carried on,
and a binder is renamed exactly when it would capture a variable of a value that is.
-/

namespace ContractLowering.Source

/-- What stands for the receiver and for variables. A variable has at most one entry. -/
structure Subst where
  receiver : Option Expr := none
  map : List (String × Expr) := []
deriving Inhabited

/-- The first of `x%1`, `x%2`, … that is not to be avoided. One of as many candidates as there are
names to avoid, and one more, is free. -/
def freshName (avoid : List String) (x : String) : String :=
  (((List.range (avoid.length + 1)).map fun n => Naming.renamed x (n + 1)).find?
    fun y => !avoid.contains y).getD (Naming.renamed x 1)

namespace Subst

/-- The bindings with one more, which replaces an earlier one of the same variable. -/
def bind (map : List (String × Expr)) (b : String × Expr) : List (String × Expr) :=
  b :: map.filter fun entry => entry.1 != b.1

/-- The substitution of bindings, of which later ones replace earlier ones. -/
def ofBindings (receiver : Option Expr) (bs : List (String × Expr)) : Subst :=
  ⟨receiver, bs.foldl bind []⟩

/-- Whether there is nothing to replace. -/
def isIdentity (s : Subst) : Bool := s.receiver.isNone && s.map.isEmpty

/-- The variables that occur free in the replacing expressions. -/
def valueVars (s : Subst) : List String :=
  s.map.flatMap (fun entry => entry.2.freeVars) ++ Expr.freeVars? s.receiver

/-- The part of a substitution that has something to replace in a scope below binders. -/
def restrict (s : Subst) (bound : List String) (scope : List Expr) : Subst :=
  let free := scope.flatMap Expr.freeVars
  { receiver := if scope.any Expr.mentionsThis then s.receiver else none
    map := s.map.filter fun entry => free.contains entry.1 && !bound.contains entry.1 }

/-- New names for the binders that clash, each chosen apart from `avoid` and from the earlier
ones, with the variables that stand for the renamed binders. -/
def renameClashes (clash : List String) (span : Span) :
    List String → List Binder → List String × List (String × Expr)
  | _, [] => ([], [])
  | avoid, (x, t) :: bs =>
    if clash.contains x then
      let y := freshName avoid x
      let (names, renames) := renameClashes clash span (y :: avoid) bs
      (y :: names, (x, .mkVar span y t) :: renames)
    else
      let (names, renames) := renameClashes clash span avoid bs
      (x :: names, renames)

/-- The substitution inside a scope, and the names of the binders that open it. The scope is
given by its first expression, whose place renamed variables take, and the others. -/
def enter (s : Subst) (binders : List Binder) (first : Expr) (others : List Expr) :
    Subst × List String :=
  let scope := first :: others
  let bound := binders.map (·.1)
  let inner := s.restrict bound scope
  if inner.isIdentity then (inner, bound)
  else
    let clash := inner.valueVars
    let avoid := clash ++ scope.flatMap Expr.freeVars ++ bound
    let (names, renames) := renameClashes clash first.span avoid binders
    ({ inner with map := renames.foldl bind inner.map }, names)

/-- The binders under new names. -/
def rebind (binders : List Binder) (names : List String) : List Binder :=
  (binders.zip names).map fun (b, x) => (x, b.2)

end Subst

/-- A pair of parts rebuilt if one of them changed. -/
def changed₂ {α β γ : Type} (build : α → β → γ) (a : α) (a' : Option α) (b : β) (b' : Option β) :
    Option γ :=
  if a'.isNone && b'.isNone then none else some (build (a'.getD a) (b'.getD b))

/-- Three parts rebuilt if one of them changed. -/
def changed₃ {α β γ δ : Type} (build : α → β → γ → δ) (a : α) (a' : Option α) (b : β)
    (b' : Option β) (c : γ) (c' : Option γ) : Option δ :=
  if a'.isNone && b'.isNone && c'.isNone then none
  else some (build (a'.getD a) (b'.getD b) (c'.getD c))

mutual

/-- The expression with a substitution applied, or `none` if nothing was replaced in it. -/
def Expr.subst? (s : Subst) : Expr → Option Expr
  | .bool .. | .int .. | .null .. => none
  | .var _ x => s.map.lookup x
  | .this _ => s.receiver
  | .field i e f => (e.subst? s).map (.field i · f)
  | .index i a b => changed₂ (.index i) a (a.subst? s) b (b.subst? s)
  | .slice i e lo hi =>
    changed₃ (.slice i) e (e.subst? s) lo (subst?Opt s lo) hi (subst?Opt s hi)
  | .update i a b c => changed₃ (.update i) a (a.subst? s) b (b.subst? s) c (c.subst? s)
  | .arrayLength i e => (e.subst? s).map (.arrayLength i)
  | .display i kind es => (subst?List s es).map (.display i kind)
  | .mapDisplay i entries => (subst?Entries s entries).map (.mapDisplay i)
  | .ctor i d c es => (subst?List s es).map (.ctor i d c)
  | .destruct i e d c f => (e.subst? s).map (.destruct i · d c f)
  | .isCtor i e d c => (e.subst? s).map (.isCtor i · d c)
  | .old i e => (e.subst? s).map (.old i)
  | .fresh i e => (e.subst? s).map (.fresh i)
  | .unary i op e => (e.subst? s).map (.unary i op)
  | .binary i op a b => changed₂ (.binary i op) a (a.subst? s) b (b.subst? s)
  | .quant i q binders range body triggers induction =>
    let (inner, names) := s.enter binders body (range.toList ++ triggers.flatten)
    let range' := subst?Opt inner range
    let body' := body.subst? inner
    let triggers' := subst?Triggers inner triggers
    if names == binders.map (·.1) && range'.isNone && body'.isNone && triggers'.isNone then none
    else some (.quant i q (Subst.rebind binders names) (range'.getD range) (body'.getD body)
      (triggers'.getD triggers) induction)
  | .setComp i binders range term =>
    let (inner, names) := s.enter binders range term.toList
    let range' := range.subst? inner
    let term' := subst?Opt inner term
    if names == binders.map (·.1) then
      if range'.isNone && term'.isNone then none
      else some (.setComp i binders (range'.getD range) (term'.getD term))
    else
      -- a missing term denotes the bound variable, whatever it is called
      let implicit := match names, binders with
        | x :: _, b :: _ => some (.mkVar range.span x b.2)
        | _, _ => none
      let term'' := if term.isNone then implicit else term'.getD term
      some (.setComp i (Subst.rebind binders names) (range'.getD range) term'')
  | .mapComp i binder range term =>
    let (inner, names) := s.enter [binder] range [term]
    let range' := range.subst? inner
    let term' := term.subst? inner
    if names == [binder.1] && range'.isNone && term'.isNone then none
    else some (.mapComp i (names.headD binder.1, binder.2) (range'.getD range) (term'.getD term))
  | .letIn i bindings body =>
    let bindings' := subst?Bindings s bindings
    let (inner, names) := s.enter (bindings.map fun b => (b.1, b.2.typ)) body []
    let body' := body.subst? inner
    if names == bindings.map (·.1) && body'.isNone && bindings'.isNone then none
    else
      let values := (bindings'.getD bindings).map (·.2)
      some (.letIn i (names.zip values) (body'.getD body))
  | .ite i a b c => changed₃ (.ite i) a (a.subst? s) b (b.subst? s) c (c.subst? s)
  | .cases i e arms => changed₂ (.cases i) e (e.subst? s) arms (subst?Arms s arms)
  | .call i f receiver args =>
    changed₂ (.call i f) receiver (subst?Opt s receiver) args (subst?List s args)

/-- Substitution in an optional expression. -/
def Expr.subst?Opt (s : Subst) : Option Expr → Option (Option Expr)
  | none => none
  | some e => (e.subst? s).map some

/-- Substitution in several expressions. -/
def Expr.subst?List (s : Subst) : List Expr → Option (List Expr)
  | [] => none
  | e :: es => changed₂ List.cons e (e.subst? s) es (subst?List s es)

/-- Substitution in keys and values. -/
def Expr.subst?Entries (s : Subst) : List (Expr × Expr) → Option (List (Expr × Expr))
  | [] => none
  | (k, v) :: rest =>
    changed₂ List.cons (k, v) (changed₂ Prod.mk k (k.subst? s) v (v.subst? s))
      rest (subst?Entries s rest)

/-- Substitution in the values of a let. -/
def Expr.subst?Bindings (s : Subst) : List (String × Expr) → Option (List (String × Expr))
  | [] => none
  | (x, e) :: rest =>
    changed₂ List.cons (x, e) ((e.subst? s).map (x, ·)) rest (subst?Bindings s rest)

/-- Substitution in match cases, each a scope of its own. -/
def Expr.subst?Arms (s : Subst) : List (Pattern × Expr) → Option (List (Pattern × Expr))
  | [] => none
  | (p, body) :: rest =>
    let (inner, names) := s.enter p.binders body []
    let body' := body.subst? inner
    let arm' :=
      if names == p.binders.map (·.1) && body'.isNone then none
      else some ({ p with binders := Subst.rebind p.binders names }, body'.getD body)
    changed₂ List.cons (p, body) arm' rest (subst?Arms s rest)

/-- Substitution in triggers. -/
def Expr.subst?Triggers (s : Subst) : List (List Expr) → Option (List (List Expr))
  | [] => none
  | t :: ts => changed₂ List.cons t (subst?List s t) ts (subst?Triggers s ts)

end

/-- The expression with a substitution applied. -/
def Expr.subst (s : Subst) (e : Expr) : Expr := (e.subst? s).getD e

end ContractLowering.Source
