import NaturalDeduction.Derivation.Step

/-! # Scopes

    A scope lists the citations that arose at one level of nesting: steps, and
    the sub-proofs that were closed there. The scopes that are open at a place
    form a stack that is never empty: the current scope, and those around it.

    All citations of the current scope can be used. Of the scopes around it only
    steps can be used: a sub-proof can be cited only at the level where it was
    closed.
-/

namespace NaturalDeduction

/-- The citations that arose in a scope, oldest first. -/
abbrev Scope := List Citation

/-- The first and the last step of what a scope lists. -/
def Scope.range? (scope : Scope) : Option (Nat × Nat) :=
  match scope.head?, scope.getLast? with
  | some a, some b => some (a.first, b.last)
  | _, _ => none

/-- The open scopes. -/
structure Scopes where
  current : Scope
  /-- The scopes around the current one, innermost first. -/
  outer : List Scope
deriving BEq, Repr

namespace Scopes

/-- A single scope in which nothing arose yet. -/
def top : Scopes := ⟨[], []⟩

/-- The number of scopes around the current one. -/
def depth (s : Scopes) : Nat := s.outer.length

/-- All open scopes, outermost first. -/
def toList (s : Scopes) : List Scope := (s.current :: s.outer).reverse

/-- Adds a citation to the current scope. -/
def record (s : Scopes) (c : Citation) : Scopes := { s with current := s.current ++ [c] }

/-- Opens a scope inside the current one. -/
def push (s : Scopes) : Scopes := ⟨[], s.current :: s.outer⟩

/-- Closes the current scope, unless it is the outermost one. -/
def pop? (s : Scopes) : Option (Scope × Scopes) :=
  match s.outer with
  | [] => none
  | enclosing :: outer => some (s.current, ⟨enclosing, outer⟩)

/-- The citations that can be used: steps of outer scopes, outermost first, then all of the current
    scope. -/
def available (s : Scopes) : List Citation :=
  s.outer.reverse.flatMap (·.filter fun c => !c.isSubproof) ++ s.current

/-- Can a citation be used? -/
def isVisible (s : Scopes) (c : Citation) : Bool :=
  (!c.isSubproof && s.outer.any (·.contains c)) || s.current.contains c

end Scopes

end NaturalDeduction
