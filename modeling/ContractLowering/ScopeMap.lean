/-!
# Maps with nested scopes

A `ScopeMap` holds the bindings in force and, for every open scope, how to undo what the scope
bound. Leaving a scope restores the map to what it was on entry, also where a key was bound
several times in the scope or shadows an outer binding.
-/

namespace ContractLowering

/-- The bindings in force, and for every open scope (innermost first) the value each of its
insertions replaced, newest first. -/
structure ScopeMap (κ : Type) (ν : Type) where
  bindings : List (κ × ν) := []
  undo : List (List (κ × Option ν)) := []
deriving Inhabited

namespace ScopeMap

variable {κ ν : Type} [BEq κ]

/-- The map without bindings and without an open scope. -/
def empty : ScopeMap κ ν := {}

/-- The value in force for a key. -/
def get? (m : ScopeMap κ ν) (k : κ) : Option ν := m.bindings.lookup k

/-- Whether a key is bound. -/
def contains (m : ScopeMap κ ν) (k : κ) : Bool := (m.get? k).isSome

/-- How many scopes are open. -/
def depth (m : ScopeMap κ ν) : Nat := m.undo.length

/-- Opens a scope. -/
def enter (m : ScopeMap κ ν) : ScopeMap κ ν := { m with undo := [] :: m.undo }

/-- Puts the value back that an insertion replaced. -/
def restore (bindings : List (κ × ν)) (change : κ × Option ν) : List (κ × ν) :=
  let others := bindings.filter fun b => !(b.1 == change.1)
  match change.2 with
  | none => others
  | some v => (change.1, v) :: others

/-- Closes the innermost scope; `none` if no scope is open. -/
def leave? (m : ScopeMap κ ν) : Option (ScopeMap κ ν) :=
  match m.undo with
  | [] => none
  | changes :: outer => some ⟨changes.foldl restore m.bindings, outer⟩

/-- Binds a key in the innermost scope and tells whether it was bound before; `none` if no scope
is open. -/
def insert? (m : ScopeMap κ ν) (k : κ) (v : ν) : Option (Bool × ScopeMap κ ν) :=
  match m.undo with
  | [] => none
  | changes :: outer =>
    let previous := m.get? k
    some (previous.isSome, ⟨restore m.bindings (k, some v), ((k, previous) :: changes) :: outer⟩)

end ScopeMap

end ContractLowering
