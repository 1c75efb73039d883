import NaturalDeduction.Derivation.Basic
import NaturalDeduction.Mutation

/-! # Changing a derivation in place

    A derivation may be kept in one place and be changed there, one field after
    the other. Each change below makes all its checks first. Only taking back a
    step goes on after its first change, when it carries out the events again
    that it has taken out of the derivation.
-/

namespace NaturalDeduction

namespace Derivation.InPlace

/-- Adds a step at the current level and returns its number. -/
def addStep (step : Step) : Mutation Derivation DerivationError Nat := do
  let d ← get
  if step.formula.schemaVariables ≠ [] then
    throw (.schematicFormula step.formula.schemaVariables)
  else
    Mutation.ofExcept (d.checkVisible step.citations)
    let placed := { step with level := d.depth }
    modify fun d => { d with events := d.events ++ [.addStep placed] }
    modify fun d => { d with steps := d.steps ++ [placed] }
    let number := (← get).steps.length
    modify fun d => { d with scopes := d.scopes.record (.step number) }
    return number

/-- Opens a scope for a sub-proof. -/
def openScope : Mutation Derivation DerivationError Unit := do
  let d ← get
  if d.depth ≠ d.lastLevel ∧ d.depth + 1 ≠ d.lastLevel then throw .nestTooDeep
  else if d.depthLimit ≠ 0 ∧ d.depth + 1 > d.depthLimit then throw (.depthLimit d.depthLimit)
  else
    modify fun d => { d with scopes := d.scopes.push }
    modify fun d => { d with events := d.events ++ [.openScope] }

/-- Closes the current scope, and records a sub-proof in the scope around it if anything arose. -/
def closeScope : Mutation Derivation DerivationError Unit := do
  let d ← get
  if d.depth = 0 then throw .atTopLevel
  else if d.depth ≠ d.lastLevel ∧ d.depth ≠ d.lastLevel + 1 then throw .exitTooFar
  else
    match d.scopes.pop? with
    | none => throw .atTopLevel
    | some (closed, scopes) =>
      modify fun d => { d with scopes := scopes }
      match Scope.range? closed with
      | some (first, last) =>
        modify fun d => { d with scopes := d.scopes.record (.subproof first last) }
      | none => pure ()
      modify fun d => { d with events := d.events ++ [.closeScope] }

/-- Does once more what an event says. -/
def replay : Event → Mutation Derivation DerivationError Unit
  | .addStep step => do
    let _ ← addStep step
  | .openScope => openScope
  | .closeScope => closeScope

/-- Does once more what the events of a list say, in order. -/
def replayAll : List Event → Mutation Derivation DerivationError Unit
  | [] => pure ()
  | event :: events => do
    replay event
    replayAll events

/-- Does an event say that a step was added? -/
def addsStep : Event → Bool
  | .addStep _ => true
  | _ => false

/-- Where in a list of events the last step was added. -/
def lastStepAt? (events : List Event) : Option Nat :=
  (events.reverse.findIdx? addsStep).map fun i => events.length - 1 - i

/-- Takes back the last step and all that came after it. The events are taken out of the derivation,
    and those before the step are carried out again from a derivation without steps. -/
def deleteStep : Mutation Derivation DerivationError Step := do
  let d ← get
  match lastStepAt? d.events with
  | none => throw .noSteps
  | some cut =>
    modify fun d => { d with events := [] }
    match d.events[cut]? with
    | some (.addStep removed) =>
      set (empty d.depthLimit)
      replayAll (d.events.take cut)
      return removed
    | _ => throw .noSteps

end Derivation.InPlace

end NaturalDeduction
