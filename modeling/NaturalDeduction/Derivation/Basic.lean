import NaturalDeduction.Derivation.Scope
import NaturalDeduction.Sequent

/-! # Derivations

    A derivation grows by steps, in scopes that are opened and closed. What was
    done is kept as a list of events. To take back the last step, the events up
    to it are carried out again from the start; scopes opened or closed after
    the step are forgotten with it.

    A scope may be opened or closed only next to the level of the last step, so
    that levels of successive steps differ by at most one.
-/

namespace NaturalDeduction

/-- Why a derivation cannot be changed or read as asked. -/
inductive DerivationError where
  | nestTooDeep
  | atTopLevel
  | exitTooFar
  | depthLimit (limit : Nat)
  | notVisible (citation : Citation)
  | noSteps
  | schematicFormula (vars : List String)
deriving DecidableEq, Repr

/-- The wording of a refused change. -/
def DerivationError.message : DerivationError → String
  | .nestTooDeep => "cannot nest more than one level in a single step"
  | .atTopLevel => "no more levels to exit"
  | .exitTooFar => "cannot exit more than one level in a single step"
  | .depthLimit limit => s!"nesting depth limit of {limit} reached"
  | .notVisible citation =>
    s!"citation {citation.display} is not available at this point in the proof"
  | .noSteps => "the proof has no steps"
  | .schematicFormula vars =>
    "proof steps must be concrete, found schema variable(s): " ++ ", ".intercalate vars

/-- Something that was done to a derivation. -/
inductive Event where
  | addStep (step : Step)
  | openScope
  | closeScope
deriving BEq

/-- Steps in nested scopes, with the events that led to them. -/
structure Derivation where
  steps : List Step
  scopes : Scopes
  events : List Event
  /-- The deepest nesting; 0 stands for no limit. -/
  depthLimit : Nat
deriving BEq

namespace Derivation

/-- A derivation without steps. -/
def empty (depthLimit : Nat) : Derivation := ⟨[], .top, [], depthLimit⟩

/-- The step with a number. -/
def step? (d : Derivation) : Nat → Option Step
  | 0 => none
  | n + 1 => d.steps[n]?

/-- The number of open scopes around the current one. -/
def depth (d : Derivation) : Nat := d.scopes.depth

/-- The level of the last step, or 0 if there is none. -/
def lastLevel (d : Derivation) : Nat := (d.steps.getLast?.map Step.level).getD 0

/-- The citations that the next step can use. -/
def available (d : Derivation) : List Citation := d.scopes.available

/-- Can the next step use a citation? -/
def isVisible (d : Derivation) (c : Citation) : Bool := d.scopes.isVisible c

/-- Asks that the next step can use all of some citations. -/
def checkVisible (d : Derivation) (citations : List Citation) : Except DerivationError Unit :=
  match citations.find? fun c => !d.isVisible c with
  | some c => .error (.notVisible c)
  | none => .ok ()

/-! ### Changes -/

/-- Adds a step at the current level and returns its number. Its formula must be concrete and its
    citations visible. -/
def addStep (d : Derivation) (step : Step) : Except DerivationError (Nat × Derivation) :=
  if step.formula.schemaVariables ≠ [] then
    .error (.schematicFormula step.formula.schemaVariables)
  else
    match d.checkVisible step.citations with
    | .error e => .error e
    | .ok () =>
      let placed := { step with level := d.depth }
      let number := d.steps.length + 1
      .ok (number, { d with
        steps := d.steps ++ [placed]
        scopes := d.scopes.record (.step number)
        events := d.events ++ [.addStep placed] })

/-- Opens a scope for a sub-proof. -/
def openScope (d : Derivation) : Except DerivationError Derivation :=
  if d.depth ≠ d.lastLevel ∧ d.depth + 1 ≠ d.lastLevel then .error .nestTooDeep
  else if d.depthLimit ≠ 0 ∧ d.depth + 1 > d.depthLimit then .error (.depthLimit d.depthLimit)
  else .ok { d with scopes := d.scopes.push, events := d.events ++ [.openScope] }

/-- Closes the current scope. If anything arose in it, it becomes a sub-proof that can be cited in
    the scope around it. -/
def closeScope (d : Derivation) : Except DerivationError Derivation :=
  match d.scopes.pop? with
  | none => .error .atTopLevel
  | some (closed, scopes) =>
    if d.depth ≠ d.lastLevel ∧ d.depth ≠ d.lastLevel + 1 then .error .exitTooFar
    else
      let scopes := match Scope.range? closed with
        | some (first, last) => scopes.record (.subproof first last)
        | none => scopes
      .ok { d with scopes := scopes, events := d.events ++ [.closeScope] }

/-- Does once more what an event says. -/
def replay (d : Derivation) : Event → Except DerivationError Derivation
  | .addStep step => do return (← d.addStep step).2
  | .openScope => d.openScope
  | .closeScope => d.closeScope

/-- Does once more what the events of a list say, in order. -/
def replayAll (d : Derivation) (events : List Event) : Except DerivationError Derivation :=
  events.foldlM replay d

/-- The last step that was added, and the events before it, last event first. -/
def cutAtLastStep : List Event → Option (Step × List Event)
  | [] => none
  | .addStep step :: earlier => some (step, earlier)
  | _ :: earlier => cutAtLastStep earlier

/-- Takes back the last step and all that came after it. -/
def deleteStep (d : Derivation) : Except DerivationError (Step × Derivation) :=
  match cutAtLastStep d.events.reverse with
  | none => .error .noSteps
  | some (step, earlier) => do
    let d' ← (empty d.depthLimit).replayAll earlier.reverse
    return (step, d')

/-! ### Premises -/

/-- The form that a citation stands for: the formula of a step, or the sequent from the first to the
    last formula of a sub-proof. -/
def resolve (d : Derivation) (c : Citation) : Except DerivationError Form :=
  match c with
  | .step n =>
    match d.step? n with
    | some s => .ok (.formula s.formula)
    | none => .error (.notVisible c)
  | .subproof a b =>
    match d.step? a, d.step? b with
    | some s, some t => .ok (.sequent [.formula s.formula] [t.formula])
    | _, _ => .error (.notVisible c)

/-- The forms that citations stand for, if all of them are visible. -/
def premises (d : Derivation) (citations : List Citation) : Except DerivationError (List Form) := do
  d.checkVisible citations
  citations.mapM d.resolve

end Derivation

end NaturalDeduction
