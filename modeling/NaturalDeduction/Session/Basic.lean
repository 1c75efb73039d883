import NaturalDeduction.Calculus.Inference
import NaturalDeduction.Calculus.Replacement
import NaturalDeduction.Logic.Basic
import NaturalDeduction.Rendering
import NaturalDeduction.Session.Consultation

/-! # Sessions

    A session derives a goal in a logic. Starting a goal states its premises;
    after that, steps are inferred from steps cited, by rules of the logic or
    by replacement, in scopes that can be opened with an assumption and closed.
    The goal is reached once each of its conclusions is stated outside all
    sub-proofs.

    Each operation returns the session after it. An operation that fails
    returns none, so that nothing has changed.
-/

namespace NaturalDeduction

/-- A derivation of a goal in a logic. -/
structure Session where
  logic : Logic
  config : Config
  derivation : Derivation
  goal : Option Sequent

namespace Session

/-- A session without a goal. -/
def new (logic : Logic) (config : Config) : Session :=
  ⟨logic, config, .empty config.depthLimit, none⟩

/-- The session with another derivation. -/
def withDerivation (s : Session) (d : Derivation) : Session := { s with derivation := d }

/-! ### Stating premises and assumptions -/

/-- A step that states a formula by a rule with a single atom as conclusion. -/
def assertionStep (s : Session) (rule : Rule) (f : Formula) : Except Error Step :=
  match rule.sequent.conclusions with
  | [.atom symbol] =>
    match s.logic.calculus.infer rule.name [] (Substitution.empty.insert symbol.name f) with
    | .error e => .error (.calculus e)
    | .ok inference =>
      match inference.conclusions with
      | [] => .error (.conclusionIndex 0 0)
      | conclusion :: _ => .ok {
          formula := conclusion
          ruleName := rule.name
          ruleAbbreviation := rule.abbreviation
          bindings := inference.bindings }
  | _ => .error (.calculus (.invalidAssertionRule rule.name "conclusion form must be atomic"))

/-- States the premises of a goal one after the other. -/
def statePremises (s : Session) (d : Derivation) : List Form → Except Error Derivation
  | [] => .ok d
  | .sequent _ _ :: _ => .error (.calculus .sequentPremise)
  | .formula f :: premises => do
    let step ← s.assertionStep s.logic.calculus.assertionRule f
    let (_, d') ← (d.addStep step).mapError Error.derivation
    s.statePremises d' premises

/-- Gives up the derivation so far and starts that of a goal. -/
def start (s : Session) (goal : Sequent) : Except Error Session := do
  let d ← s.statePremises (.empty s.config.depthLimit) goal.premises
  return { s with derivation := d, goal := some goal }

/-- Starts a goal given as text. -/
def startText (s : Session) (source : String) : Except Error Session := do
  let goal ← (s.logic.language.parseSequent .proposition source).mapError Error.unreadable
  s.start goal

/-- Opens a scope with an assumption, and returns the number of its step. -/
def assume (s : Session) (assumption : Formula) : Except Error (Nat × Session) := do
  let step ← s.assertionStep s.logic.calculus.subproofRule assumption
  let opened ← s.derivation.openScope.mapError Error.derivation
  let (number, d) ← (opened.addStep step).mapError Error.derivation
  return (number, s.withDerivation d)

/-- Opens a scope. -/
def openScope (s : Session) : Except Error Session := do
  return s.withDerivation (← s.derivation.openScope.mapError Error.derivation)

/-- Closes the current scope. -/
def closeScope (s : Session) : Except Error Session := do
  return s.withDerivation (← s.derivation.closeScope.mapError Error.derivation)

/-- Takes back the last step. -/
def deleteStep (s : Session) : Except Error (Step × Session) := do
  let (step, d) ← s.derivation.deleteStep.mapError Error.derivation
  return (step, s.withDerivation d)

/-! ### Inferring steps -/

/-- Adds a step and returns its number. -/
def addStep (s : Session) (step : Step) : Except Error (Nat × Session) := do
  let (number, d) ← (s.derivation.addStep step).mapError Error.derivation
  return (number, s.withDerivation d)

/-- The step that the rule called `key` gives for what is cited. The host binds the variables that no
    premise determines, and chooses if the rule has not exactly one conclusion. -/
def inferredStep (s : Session) (key : String) (citations : List Citation) : Consultation Step := do
  let rule ← .ofExcept Error.calculus (s.logic.calculus.rule key)
  let premises ← .ofExcept Error.derivation (s.derivation.premises citations)
  if premises.length ≠ rule.premiseCount then
    .fail (.calculus (.noMatch rule.name (.arity rule.premiseCount premises.length)))
  else
    let extra ←
      if rule.conclusionOnly.isEmpty then pure Substitution.empty
      else .question (.symbols rule.conclusionOnly rule)
    let inference ← .ofExcept Error.calculus (s.logic.calculus.infer key premises extra)
    let index : Nat ←
      if inference.conclusions.length = 1 then pure 0
      else .question (.conclusion inference.conclusions)
    match inference.conclusions[index]? with
    | none => .fail (.conclusionIndex index inference.conclusions.length)
    | some conclusion =>
      return {
        formula := conclusion
        citations := citations
        ruleName := rule.name
        ruleAbbreviation := rule.abbreviation
        bindings := inference.bindings
        conclusionIndex := index }

/-- Infers a step by the rule called `key` from what is cited. -/
def infer (s : Session) (key : String) (citations : List Citation) :
    Consultation (Nat × Session) := do
  let step ← s.inferredStep key citations
  .ofExcept id (s.addStep step)

/-- The step that replaces a sub-formula of the only premise by the equivalence called `key`. The
    host chooses the sub-formula. -/
def replacedStep (s : Session) (key : String) (citations : List Citation) : Consultation Step := do
  let rule ← .ofExcept Error.calculus (s.logic.calculus.rule key)
  if (s.logic.calculus.sides? rule).isNone then
    .fail (.calculus (.notAnEquivalence rule.name))
  else
    let premises ← .ofExcept Error.derivation (s.derivation.premises citations)
    match premises with
    | [.sequent _ _] => .fail (.calculus .sequentPremise)
    | [.formula premise] =>
      let path ← .question (.subformula premise)
      let replacement ← .ofExcept Error.calculus (s.logic.calculus.replace key premises path)
      return {
        formula := if s.config.replaceInContext then replacement.inContext else replacement.formula
        citations := citations
        ruleName := rule.name
        ruleAbbreviation := rule.abbreviation
        bindings := replacement.bindings }
    | _ => .fail (.calculus (.equivalencePremiseCount premises.length))

/-- Replaces a sub-formula of the only premise by the equivalence called `key`. -/
def replace (s : Session) (key : String) (citations : List Citation) :
    Consultation (Nat × Session) := do
  let step ← s.replacedStep key citations
  .ofExcept id (s.addStep step)

/-! ### Looking at a session -/

/-- Is every conclusion of the goal stated outside all sub-proofs? -/
def isComplete (s : Session) : Bool :=
  match s.goal with
  | none => false
  | some goal =>
    goal.conclusions.all fun c => s.derivation.steps.any fun step =>
      step.level == 0 && decide (step.formula = c)

/-- A number in at least three places. -/
def lineNumber (n : Nat) : String :=
  let digits := toString n
  String.ofList (List.replicate (3 - digits.length) ' ') ++ digits

/-- The lines of steps, the first of which has number `n`. -/
def transcriptFrom (s : Session) (n : Nat) : List Step → Except Error (List String)
  | [] => return []
  | step :: steps => do
    let text ← (s.logic.language.format step.formula s.config.style).mapError Error.region
    let bars := String.join (List.replicate step.level "| ")
    let line := lineNumber n ++ ". " ++ bars ++ text ++ "    " ++ step.justification
    return line :: (← s.transcriptFrom (n + 1) steps)

/-- A line for each step: its number, a bar for each sub-proof around it, its formula and how it was
    obtained. -/
def transcript (s : Session) : Except Error (List String) :=
  s.transcriptFrom 1 s.derivation.steps

end Session

end NaturalDeduction
