import NaturalDeduction.Session.Basic

/-! # Commands

    Everything that can be done in a session, as data, with what is reported
    back.
-/

namespace NaturalDeduction

/-- Something to be done in a session. -/
inductive Command where
  | start (goal : Sequent)
  | startText (source : String)
  | infer (key : String) (citations : List Citation)
  | replace (key : String) (citations : List Citation)
  | openScope
  | assume (assumption : Formula)
  | closeScope
  | deleteStep

/-- What is reported back. -/
inductive Reply where
  | done
  /-- The number of a new step. -/
  | added (number : Nat)
  /-- A step that was taken back. -/
  | removed (step : Step)

namespace Session

/-- Does what a command says. -/
def perform (s : Session) : Command → Consultation (Reply × Session)
  | .start goal => .ofExcept id do return (.done, ← s.start goal)
  | .startText source => .ofExcept id do return (.done, ← s.startText source)
  | .infer key citations => do
    let (number, s') ← s.infer key citations
    return (.added number, s')
  | .replace key citations => do
    let (number, s') ← s.replace key citations
    return (.added number, s')
  | .openScope => .ofExcept id do return (.done, ← s.openScope)
  | .assume assumption => .ofExcept id do
    let (number, s') ← s.assume assumption
    return (.added number, s')
  | .closeScope => .ofExcept id do return (.done, ← s.closeScope)
  | .deleteStep => .ofExcept id do
    let (step, s') ← s.deleteStep
    return (.removed step, s')

/-- The session after a command with the answers of an advisor; if the command fails, nothing has
    changed. -/
def after (s : Session) (command : Command) (advisor : Advisor) : Session :=
  match (s.perform command).run advisor with
  | .ok (_, s') => s'
  | .error _ => s

end Session

end NaturalDeduction
