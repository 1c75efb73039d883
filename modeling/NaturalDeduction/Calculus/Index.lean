import NaturalDeduction.Calculus.Basic

/-! # The index of a calculus

    Rules are looked up in an index, which says for each name and abbreviation
    where in the list its rule stands. The index is made while the rules are
    checked, rule by rule: a name that is there already must belong to the same
    rule, as when a rule is abbreviated by its own name.

    A registry is a calculus with its index. The places in an index are places
    in the list of rules, so that a look-up never leads nowhere.
-/

namespace NaturalDeduction

/-- Places in a list of `n` rules, by the names and abbreviations of the rules. -/
abbrev RuleIndex (n : Nat) := List (String × Fin n)

namespace RuleIndex

variable {n : Nat}

/-- The place of the rule that is called `key`. -/
def place? (index : RuleIndex n) (key : String) : Option (Fin n) := index.lookup key

/-- Says that the rule called `key` is at a place, whatever was said about `key` before. -/
def insert (index : RuleIndex n) (key : String) (place : Fin n) : RuleIndex n :=
  insertEntry key place index

/-- Enters a name of the rule at a place. No rule at another place may have it. -/
def enter (place : Fin n) (index : RuleIndex n) (key : String) :
    Except CalculusError (RuleIndex n) :=
  match index.place? key with
  | some other =>
    if other ≠ place then .error (.duplicateRule key) else .ok (index.insert key place)
  | none => .ok (index.insert key place)

/-- Checks how many premises the rule at a place has, and enters its name and its abbreviation. -/
def enterRule (limit : Nat) (rules : List Rule) (index : RuleIndex rules.length)
    (place : Fin rules.length) : Except CalculusError (RuleIndex rules.length) :=
  let rule := rules.get place
  if rule.premiseCount > limit then
    .error (.tooManyPremises rule.name rule.premiseCount limit)
  else [rule.name, rule.abbreviation].foldlM (enter place) index

/-- The index of a list of rules, or the first thing wrong with them. -/
def ofRules (limit : Nat) (rules : List Rule) : Except CalculusError (RuleIndex rules.length) :=
  (List.finRange rules.length).foldlM (enterRule limit rules) []

end RuleIndex

/-- Rules with their index and their roles. -/
structure Registry where
  rules : List Rule
  index : RuleIndex rules.length
  roles : Roles
  /-- The operator by which rules of replacement are stated. -/
  equivalence : Option Operator

namespace Registry

/-- The rule that the index gives for `key`. -/
def find? (r : Registry) (key : String) : Option Rule := (r.index.place? key).map r.rules.get

/-- Is `key` in the index? -/
def hasRule (r : Registry) (key : String) : Bool := (r.index.place? key).isSome

/-- The rule that is called `key`. -/
def rule (r : Registry) (key : String) : Except CalculusError Rule :=
  match r.find? key with
  | some rule => .ok rule
  | none => .error (.unknownRule key)

/-- The rule that brings premises of a goal into a derivation. -/
def assertionRule (r : Registry) : Except CalculusError Rule := r.rule r.roles.assertion

/-- The rule that opens sub-proofs: the one with that role, or else the one for premises. -/
def subproofRule (r : Registry) : Except CalculusError Rule :=
  match r.roles.subproof with
  | some key => r.rule key
  | none => r.assertionRule

/-- Checks that the rules with a role are there, and that the one for premises is of its form. -/
def checkRoles (r : Registry) : Except CalculusError Registry := do
  let _ ← Calculus.checkAssertion r.roles.assertion (r.find? r.roles.assertion)
  match r.roles.subproof with
  | some key => if r.hasRule key then return r else throw (.unknownRule key)
  | none => return r

/-- The registry of some rules, or the first thing wrong with them. -/
def ofRules (rules : List Rule) (roles : Roles) (equivalence : Option Operator)
    (config : Config) : Except CalculusError Registry := do
  let index ← RuleIndex.ofRules config.premiseLimit rules
  checkRoles ⟨rules, index, roles, equivalence⟩

/-- The calculus of a registry, with the rules that have a role looked up. -/
def calculus (r : Registry) : Except CalculusError Calculus := do
  let assertionRule ← r.assertionRule
  let subproofRule ← r.subproofRule
  return ⟨r.rules, r.roles, r.equivalence, assertionRule, subproofRule⟩

end Registry

end NaturalDeduction
