import NaturalDeduction.Error
import NaturalDeduction.Formula.Path

/-! # Consultations

    Some choices in a derivation are the host's: which sub-formula to replace,
    what to bind to variables that no premise determines, which of several
    conclusions to keep. Work that may need such choices is a consultation: it
    is finished, or it has a question and goes on with the answer.

    An advisor answers questions. A question without an answer cancels the
    work. Since the work changes nothing before it is finished, a cancelled
    consultation leaves everything as it was.
-/

namespace NaturalDeduction

/-- Something that the host has to choose. -/
inductive Question where
  /-- Which sub-formula of a premise is to be replaced? -/
  | subformula (premise : Formula)
  /-- Which formulas do these schema variables of a rule stand for? -/
  | symbols (names : List String) (rule : Rule)
  /-- Which of the conclusions is kept? -/
  | conclusion (candidates : List Formula)

/-- What answers a question. -/
def Question.Answer : Question → Type
  | .subformula _ => Path
  | .symbols _ _ => Substitution
  | .conclusion _ => Nat

/-- Answers questions, or declines to. -/
abbrev Advisor := (q : Question) → Option q.Answer

/-- Replaces the whole premise, binds nothing, and keeps the first conclusion. -/
def Advisor.firstChoice : Advisor
  | .subformula _ => some []
  | .symbols _ _ => some Substitution.empty
  | .conclusion _ => some (0 : Nat)

/-- Work that may have questions. -/
inductive Consultation (α : Type) where
  | done (result : Except Error α)
  | ask (q : Question) (next : q.Answer → Consultation α)

namespace Consultation

variable {α β : Type}

/-- Goes on with the result, if there is one. -/
def bind : Consultation α → (α → Consultation β) → Consultation β
  | .done (.ok a), f => f a
  | .done (.error e), _ => .done (.error e)
  | .ask q next, f => .ask q fun a => (next a).bind f

instance : Monad Consultation where
  pure a := .done (.ok a)
  bind := Consultation.bind

/-- Work without questions. -/
def ofExcept {ε : Type} (toError : ε → Error) : Except ε α → Consultation α
  | .ok a => .done (.ok a)
  | .error e => .done (.error (toError e))

/-- Work that fails. -/
def fail (e : Error) : Consultation α := .done (.error e)

/-- Work that asks one question and returns the answer. -/
def question (q : Question) : Consultation q.Answer := .ask q pure

/-- The outcome with the answers of an advisor. -/
def run (advisor : Advisor) : Consultation α → Except Error α
  | .done result => result
  | .ask q next =>
    match advisor q with
    | some a => (next a).run advisor
    | none => .error .cancelled

/-- The questions put to an advisor, in order. -/
def asked (advisor : Advisor) : Consultation α → List Question
  | .done _ => []
  | .ask q next =>
    q :: match advisor q with
      | some a => (next a).asked advisor
      | none => []

/-! ### Small facts -/

@[simp] theorem run_pure (advisor : Advisor) (a : α) :
    (pure a : Consultation α).run advisor = .ok a := rfl

/-- Running work in two parts. -/
theorem run_bind (advisor : Advisor) (x : Consultation α) (f : α → Consultation β) :
    (x >>= f).run advisor =
      match x.run advisor with
      | .ok a => (f a).run advisor
      | .error e => .error e := by
  show (x.bind f).run advisor = _
  induction x with
  | done result => cases result <;> rfl
  | ask q next ih =>
    simp only [Consultation.bind, run]
    cases h : advisor q with
    | none => rfl
    | some a => exact ih a

@[simp] theorem run_ofExcept {ε : Type} (advisor : Advisor) (toError : ε → Error)
    (x : Except ε α) : (ofExcept toError x).run advisor = x.mapError toError := by
  cases x <;> rfl

@[simp] theorem run_fail (advisor : Advisor) (e : Error) :
    (fail e : Consultation α).run advisor = .error e := rfl

end Consultation

end NaturalDeduction
