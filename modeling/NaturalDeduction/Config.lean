import NaturalDeduction.Language.Lexicon

/-! # Configuration -/

namespace NaturalDeduction

/-- What a user may set. -/
structure Config where
  /-- The largest number of premises that a rule may have. -/
  premiseLimit : Nat := 8
  /-- The deepest nesting of sub-proofs; 0 stands for no limit. -/
  depthLimit : Nat := 0
  /-- The style in which formulas are written. -/
  style : Style := .ascii
  /-- Does a step by replacement state the whole premise with the new part in its place, and not
      only the new part? -/
  replaceInContext : Bool := false
deriving DecidableEq, Repr

instance : Inhabited Config := ⟨{}⟩

/-- What can be wrong with a configuration. -/
inductive ConfigError where
  /-- The text is no written form of a configuration. -/
  | unreadable
  | zeroPremiseLimit
deriving DecidableEq, Repr

/-- The wording of an error in a configuration. -/
def ConfigError.message : ConfigError → String
  | .unreadable => "invalid configuration"
  | .zeroPremiseLimit => "invalid configuration: max_rule_premises must be at least 1"

/-- Accepts a configuration that lets rules have premises. -/
def Config.check (config : Config) : Except ConfigError Config :=
  if config.premiseLimit = 0 then .error .zeroPremiseLimit else .ok config

end NaturalDeduction
