import NaturalDeduction.Calculus.Basic

/-! # Inference

    A rule is applied to premises by matching its premise templates with them
    in any order; the conclusions are the instances of its conclusion
    templates. Schema variables that occur in no premise must be bound
    beforehand.
-/

namespace NaturalDeduction

/-- The outcome of an inference. -/
structure Inference where
  bindings : Substitution
  /-- One for each conclusion template, in order. -/
  conclusions : List Formula

namespace Calculus

/-- Applies a rule to premises, starting from the bindings `extra`. -/
def infer (c : Calculus) (key : String) (premises : List Form) (extra : Substitution) :
    Except CalculusError Inference := do
  let rule ← c.rule key
  match Form.matchInAnyOrder rule.sequent.premises premises extra with
  | .error cause => throw (.noMatch rule.name cause)
  | .ok σ =>
    let unbound := rule.conclusionOnly.filter fun x => !σ.contains x
    if unbound.isEmpty then return ⟨σ, rule.sequent.conclusions.map σ.apply⟩
    else throw (.unboundSymbols rule.name unbound)

end Calculus

end NaturalDeduction
