import NaturalDeduction.AnnotatedText.Draft
import NaturalDeduction.Calculus.Basic
import NaturalDeduction.Source

/-! # Errors

    All that can go wrong between a text and a finished derivation, gathered
    from the modules where it arises.
-/

namespace NaturalDeduction

/-- An error of any part of the library. -/
inductive Error where
  /-- A text cannot be read as a formula or sequent. -/
  | unreadable (cause : SyntaxError)
  | lexicon (cause : LexiconError)
  | config (cause : ConfigError)
  | region (cause : RegionError)
  | matching (cause : MatchError)
  | calculus (cause : CalculusError)
  | derivation (cause : DerivationError)
  /-- A conclusion was chosen that the rule does not have. -/
  | conclusionIndex (index count : Nat)
  /-- The host gave no answer to a question. -/
  | cancelled
deriving DecidableEq, Repr

/-- The wording of an error. -/
def Error.message : Error → String
  | .unreadable cause => cause.display
  | .lexicon cause => cause.message
  | .config cause => cause.message
  | .region cause => cause.message
  | .matching cause => cause.message
  | .calculus cause => cause.message
  | .derivation cause => cause.message
  | .conclusionIndex index count =>
    s!"conclusion index {index} out of range for {count} candidate(s)"
  | .cancelled => "inference cancelled"

end NaturalDeduction
