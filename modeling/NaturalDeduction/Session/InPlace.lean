import NaturalDeduction.Derivation.InPlace
import NaturalDeduction.Session.Command

/-! # Running a session in place

    A host keeps one session and has it changed command by command. Commands
    that fail in between do not end the session: the next one goes on with
    whatever the session has become.

    A goal is stated in a derivation of its own, which takes the place of the
    old one last. An assumption first opens a scope, and keeps the derivation
    from before in case the assumption is refused in it.
-/

namespace NaturalDeduction.Session.InPlace

/-- Work on the derivation of a session. -/
def onDerivation {α : Type} (x : Mutation Derivation DerivationError α) :
    Mutation Session Error α := do
  let s ← get
  let (result, d) := Mutation.outcome x s.derivation
  set (s.withDerivation d)
  Mutation.ofExcept (result.mapError Error.derivation)

/-- Gives up the derivation so far and starts that of a goal. The goal must be one that can be
    shown. -/
def start (goal : Sequent) : Mutation Session Error Unit := do
  let s ← get
  let d ← Mutation.ofExcept (s.statePremises (.empty s.config.depthLimit) goal.premises)
  let _ ← Mutation.ofExcept
    ((s.logic.language.formatSequent goal s.config.style).mapError Error.region)
  modify fun s => { s with derivation := d }
  modify fun s => { s with goal := some goal }

/-- Starts a goal given as text. -/
def startText (source : String) : Mutation Session Error Unit := do
  let s ← get
  let goal ← Mutation.ofExcept
    ((s.logic.language.parseSequent .proposition source).mapError Error.unreadable)
  start goal

/-- Infers a step by the rule called `key` from what is cited. -/
def infer (key : String) (citations : List Citation) (advisor : Advisor) :
    Mutation Session Error Nat := do
  let s ← get
  let step ← Mutation.ofExcept ((s.inferredStep key citations).run advisor)
  onDerivation (Derivation.InPlace.addStep step)

/-- Replaces a sub-formula of the only premise by the equivalence called `key`. -/
def replace (key : String) (citations : List Citation) (advisor : Advisor) :
    Mutation Session Error Nat := do
  let s ← get
  let step ← Mutation.ofExcept ((s.replacedStep key citations).run advisor)
  onDerivation (Derivation.InPlace.addStep step)

/-- Opens a scope with an assumption. If the assumption is refused, the scope is given up again. -/
def assume (assumption : Formula) : Mutation Session Error Nat := do
  let s ← get
  let step ← Mutation.ofExcept (s.assertionStep s.logic.calculus.subproofRule assumption)
  let saved := s.derivation
  onDerivation Derivation.InPlace.openScope
  tryCatch (onDerivation (Derivation.InPlace.addStep step)) fun e => do
    modify fun s => s.withDerivation saved
    throw e

/-- Does what a command says, with the answers of an advisor. -/
def perform (command : Command) (advisor : Advisor) : Mutation Session Error Reply :=
  match command with
  | .start goal => do
    start goal
    return .done
  | .startText source => do
    startText source
    return .done
  | .infer key citations => return .added (← infer key citations advisor)
  | .replace key citations => return .added (← replace key citations advisor)
  | .openScope => do
    onDerivation Derivation.InPlace.openScope
    return .done
  | .assume assumption => return .added (← assume assumption)
  | .closeScope => do
    onDerivation Derivation.InPlace.closeScope
    return .done
  | .deleteStep => return .removed (← onDerivation Derivation.InPlace.deleteStep)

/-- Carries out commands one after the other, each with an advisor of its own, and goes on where a
    command has failed. -/
def performAll : List (Command × Advisor) → Session → List (Except Error Reply) × Session
  | [], s => ([], s)
  | (command, advisor) :: script, s =>
    let (result, s') := Mutation.outcome (perform command advisor) s
    let (results, last) := performAll script s'
    (result :: results, last)

end NaturalDeduction.Session.InPlace
