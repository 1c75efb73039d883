import NaturalDeduction.Config
import NaturalDeduction.Derivation.Basic
import NaturalDeduction.Matching

/-! # Calculi

    A calculus is a list of rules. A rule is a sequent with schema variables,
    known by a name and an abbreviation. One rule has the role to bring the
    premises of a goal into a derivation; another one may have the role to open
    sub-proofs. If the calculus has an operator for equivalence, a rule that
    states an equivalence without premises is also a rule of replacement.
-/

namespace NaturalDeduction

/-- A rule of inference. -/
structure Rule where
  name : String
  /-- Can be used wherever the name can. -/
  abbreviation : String
  sequent : Sequent
  /-- How the rule follows from other rules; a basic rule has no derivation. -/
  derivation : Option Derivation := none

namespace Rule

/-- Is the rule called `key`, by its name or by its abbreviation? -/
def isCalled (r : Rule) (key : String) : Bool := r.name == key || r.abbreviation == key

/-- The number of premises. -/
def premiseCount (r : Rule) : Nat := r.sequent.premises.length

/-- The schema variables that matching the premises cannot bind, in ascending order. -/
def conclusionOnly (r : Rule) : List String := r.sequent.conclusionAdditions

end Rule

/-- Names of the rules with a special use. -/
structure Roles where
  /-- Brings premises of a goal into a derivation. -/
  assertion : String
  theoremIntro : String := "Theorem Intro"
  axiomIntro : String := "Axiom Intro"
  /-- Opens sub-proofs, in place of the rule for premises. -/
  subproof : Option String := none
deriving DecidableEq, Repr

/-- Why a calculus is refused, or a rule does not apply. -/
inductive CalculusError where
  | unknownRule (key : String)
  | duplicateRule (key : String)
  | invalidAssertionRule (rule reason : String)
  | tooManyPremises (rule : String) (premises limit : Nat)
  | noMatch (rule : String) (cause : MatchError)
  | unboundSymbols (rule : String) (symbols : List String)
  | equivalencePremiseCount (count : Nat)
  | notAnEquivalence (rule : String)
  | invalidTarget
  | targetOutsidePremise (path : List Nat)
  | sequentPremise
deriving DecidableEq, Repr

/-- The wording of an error of a calculus. -/
def CalculusError.message : CalculusError → String
  | .unknownRule key => s!"unknown inference rule '{key}'"
  | .duplicateRule key => s!"rule name or abbreviation '{key}' is defined twice"
  | .invalidAssertionRule rule reason => s!"invalid premise assertion rule '{rule}': {reason}"
  | .tooManyPremises rule premises limit =>
    s!"rule '{rule}' has {premises} premises, more than the limit of {limit}"
  | .noMatch rule cause => s!"rule '{rule}': {cause.message}"
  | .unboundSymbols rule symbols =>
    s!"rule '{rule}' needs bindings for conclusion-only symbols: " ++ ", ".intercalate symbols
  | .equivalencePremiseCount count =>
    s!"an equivalence requires exactly one premise, {count} supplied"
  | .notAnEquivalence rule => s!"rule '{rule}' is not an equivalence theorem"
  | .invalidTarget =>
    "the selected sub-formula must be an instance of one side of the equivalence"
  | .targetOutsidePremise path =>
    "the selected location [" ++ ", ".intercalate (path.map toString) ++
      "] is not inside the premise"
  | .sequentPremise => "a sub-proof premise cannot be rewritten by an equivalence"

/-- Checked rules with their roles. -/
structure Calculus where
  rules : List Rule
  roles : Roles
  /-- The operator by which rules of replacement are stated. -/
  equivalence : Option Operator
  /-- The rule that brings premises of a goal into a derivation. -/
  assertionRule : Rule
  /-- The rule that opens sub-proofs. -/
  subproofRule : Rule

namespace Calculus

/-- The first rule of a list that is called `key`. -/
def find? (rules : List Rule) (key : String) : Option Rule := rules.find? (·.isCalled key)

/-- Checks rules in order: none has more premises than the limit, and none is called like a rule
    before it. -/
def checkRules (limit : Nat) (before : List Rule) : List Rule → Except CalculusError Unit
  | [] => .ok ()
  | r :: rs =>
    if r.premiseCount > limit then .error (.tooManyPremises r.name r.premiseCount limit)
    else if (find? before r.name).isSome then .error (.duplicateRule r.name)
    else if (find? before r.abbreviation).isSome then .error (.duplicateRule r.abbreviation)
    else checkRules limit (r :: before) rs

/-- Checks the rule that brings premises into a derivation, if one was found by its name: it has no
    premises, and a single atom as conclusion. -/
def checkAssertion (key : String) : Option Rule → Except CalculusError Rule
  | none => .error (.invalidAssertionRule key "rule name not defined")
  | some r =>
    if r.sequent.premises.isEmpty then
      match r.sequent.conclusions with
      | [.atom _] => .ok r
      | [.app _ _] => .error (.invalidAssertionRule key "conclusion form must be atomic")
      | _ => .error (.invalidAssertionRule key "rule must have exactly one conclusion form")
    else .error (.invalidAssertionRule key "rule may have no premise forms")

/-- The rule that brings premises into a derivation. -/
def findAssertion (rules : List Rule) (key : String) : Except CalculusError Rule :=
  checkAssertion key (find? rules key)

/-- The rule that opens sub-proofs: the one with that role, or else the one for premises. -/
def findSubproof (rules : List Rule) (assertion : Rule) : Option String →
    Except CalculusError Rule
  | none => .ok assertion
  | some key =>
    match find? rules key with
    | some r => .ok r
    | none => .error (.unknownRule key)

/-- The calculus of some rules, or the first thing wrong with them. -/
def ofRules (rules : List Rule) (roles : Roles) (equivalence : Option Operator)
    (config : Config) : Except CalculusError Calculus := do
  checkRules config.premiseLimit [] rules
  let assertionRule ← findAssertion rules roles.assertion
  let subproofRule ← findSubproof rules assertionRule roles.subproof
  return { rules, roles, equivalence, assertionRule, subproofRule }

/-- Is a rule called `key`? -/
def hasRule (c : Calculus) (key : String) : Bool := (find? c.rules key).isSome

/-- The rule that is called `key`. -/
def rule (c : Calculus) (key : String) : Except CalculusError Rule :=
  match find? c.rules key with
  | some r => .ok r
  | none => .error (.unknownRule key)

/-- The two sides of a rule of replacement. -/
def sides? (c : Calculus) (r : Rule) : Option (Formula × Formula) := r.sequent.sides? c.equivalence

/-- Is the rule called `key` a rule of replacement? -/
def isEquivalenceRule (c : Calculus) (key : String) : Bool :=
  match find? c.rules key with
  | some r => (c.sides? r).isSome
  | none => false

end Calculus

end NaturalDeduction
