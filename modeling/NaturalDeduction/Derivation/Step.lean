import NaturalDeduction.Substitution

/-! # Steps of a derivation

    A step states a formula and says how it was obtained: the steps and
    sub-proofs it cites, the rule, and how the rule was instantiated. Steps are
    numbered from 1.
-/

namespace NaturalDeduction

/-- A reference to an earlier step, or to a closed sub-proof by its first and last step. -/
inductive Citation where
  | step (number : Nat)
  | subproof (first last : Nat)
deriving DecidableEq, Repr

namespace Citation

/-- Does the citation refer to a sub-proof? -/
def isSubproof : Citation → Bool
  | .step _ => false
  | .subproof _ _ => true

/-- The first step that is covered. -/
def first : Citation → Nat
  | .step n => n
  | .subproof a _ => a

/-- The last step that is covered. -/
def last : Citation → Nat
  | .step n => n
  | .subproof _ b => b

/-- Text of the form `3` or `2-4`. -/
def display : Citation → String
  | .step n => toString n
  | .subproof a b => s!"{a}-{b}"

end Citation

/-- A line of a derivation. -/
structure Step where
  /-- The number of sub-proofs around the step. -/
  level : Nat := 0
  formula : Formula
  citations : List Citation := []
  ruleName : String
  ruleAbbreviation : String
  /-- The formulas for the schema variables of the rule. -/
  bindings : Substitution := .empty
  /-- Which conclusion of the rule the formula is an instance of. -/
  conclusionIndex : Nat := 0
deriving BEq

/-- The citations and the abbreviation of the rule, as in `1,2-4 MP`. -/
def Step.justification (s : Step) : String :=
  if s.citations.isEmpty then s.ruleAbbreviation
  else ",".intercalate (s.citations.map Citation.display) ++ " " ++ s.ruleAbbreviation

end NaturalDeduction
