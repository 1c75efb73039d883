import NaturalDeduction.Calculus.Basic
import NaturalDeduction.Formula.Path

/-! # Rules of replacement

    A rule that states an equivalence replaces one sub-formula of a single
    premise: the sub-formula is matched with the left side, or if that fails
    with the right side, and the instance of the other side takes its place.
-/

namespace NaturalDeduction

/-- Which side of an equivalence was matched. -/
inductive Direction where
  | leftToRight
  | rightToLeft
deriving DecidableEq, Repr

/-- The outcome of a replacement. -/
structure Replacement where
  bindings : Substitution
  direction : Direction
  /-- The instance of the other side. -/
  formula : Formula
  /-- The premise with the instance in its place. -/
  inContext : Formula

/-- Matches a formula with the left side, else with the right side. Returns the bindings, the
    direction and the side that was not matched. -/
def matchSide (left right f : Formula) : Option (Substitution × Direction × Formula) :=
  match left.matchWith f .empty with
  | (true, σ) => some (σ, .leftToRight, right)
  | (false, _) =>
    match right.matchWith f .empty with
    | (true, σ) => some (σ, .rightToLeft, left)
    | (false, _) => none

namespace Calculus

/-- Replaces the sub-formula at a path of the only premise by the equivalence called `key`. -/
def replace (c : Calculus) (key : String) (premises : List Form) (path : Path) :
    Except CalculusError Replacement := do
  let rule ← c.rule key
  match c.sides? rule with
  | none => throw (.notAnEquivalence rule.name)
  | some (left, right) =>
    match premises with
    | [.sequent _ _] => throw .sequentPremise
    | [.formula premise] =>
      match premise.at? path with
      | none => throw (.targetOutsidePremise path)
      | some selected =>
        match matchSide left right selected with
        | none => throw .invalidTarget
        | some (σ, direction, other) =>
          let f := σ.apply other
          let unbound := f.schemaVariables
          if unbound.isEmpty then
            match premise.replaceAt? path f with
            | some inContext => return ⟨σ, direction, f, inContext⟩
            | none => throw (.targetOutsidePremise path)
          else throw (.unboundSymbols rule.name unbound)
    | _ => throw (.equivalencePremiseCount premises.length)

end Calculus

end NaturalDeduction
