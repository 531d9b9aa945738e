/-!
# Options of the lowering

The options change the shape of a lowered program, never what it is to mean.
-/

namespace ContractLowering

/-- Settings of a lowering.

* `induction` is how choosy the heuristic for induction variables is: at 0 any variable of the
  body counts, at 1 those in arguments of calls, at 2 those in prominent arguments, and above
  those in prominent arguments of recursive calls.
* `splitHeight` bounds how deep recursive predicates are opened when goals are split.
* `reverifyRefined` checks inherited obligations again.
* `autoTriggers` selects triggers for quantifiers that have none.
* `checkReads` checks that functions read only what they say. -/
structure Options where
  induction : Nat := 3
  splitHeight : Nat := 3
  reverifyRefined : Bool := false
  autoTriggers : Bool := true
  checkReads : Bool := true
deriving DecidableEq, Inhabited

/-- A setting as a configuration gives it. -/
inductive Setting where
  | number (n : Int)
  | boolean (b : Bool)
  | other
deriving DecidableEq, Inhabited

namespace Setting

/-- The number from 0 up to a limit that a setting is, if it is one. -/
def below? (limit : Nat) : Setting → Option Nat
  | .number n => if 0 ≤ n ∧ n < limit then some n.toNat else none
  | .boolean _ | .other => none

/-- The Boolean that a setting is, if it is one. -/
def boolean? : Setting → Option Bool
  | .boolean b => some b
  | .number _ | .other => none

end Setting

/-- The options with one of them set. A name that is no option changes nothing, a value of the wrong
kind or out of range is refused. -/
def Options.set? (o : Options) (name : String) (value : Setting) : Option Options :=
  match name with
  | "induction" => (value.below? 256).map fun n => { o with induction := n }
  | "split_height" => (value.below? 4294967296).map fun n => { o with splitHeight := n }
  | "reverify_refined" => value.boolean?.map fun b => { o with reverifyRefined := b }
  | "auto_triggers" => value.boolean?.map fun b => { o with autoTriggers := b }
  | "check_reads" => value.boolean?.map fun b => { o with checkReads := b }
  | _ => some o

/-- The options of a configuration; those it does not set have their defaults. -/
def Options.ofSettings? (settings : List (String × Setting)) : Option Options :=
  settings.foldlM (fun o s => o.set? s.1 s.2) {}

end ContractLowering
