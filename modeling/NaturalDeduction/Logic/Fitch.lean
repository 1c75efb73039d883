import NaturalDeduction.Language.Arrow
import NaturalDeduction.Logic.Basic

/-! # The Fitch logic

    Each connective has a rule that introduces it and a rule that eliminates
    it. Negations and conditionals are introduced by sub-proofs.
-/

namespace NaturalDeduction.Logic

/-- The rules of the Fitch logic. -/
def fitchRules : List RuleEntry :=
  [ ⟨"Assumption", "A", "|- P"⟩,
    ⟨"Hypothesis", "H", "|- P"⟩,
    ⟨"Negation Elimination", "-E", "--P |- P"⟩,
    ⟨"Negation Introduction", "-I", "( P |- Q ^ -Q ) |- -P"⟩,
    ⟨"Conjunction Elimination", "^E", "P ^ Q |- P, Q"⟩,
    ⟨"Conjunction Introduction", "^I", "P, Q |- P ^ Q, Q ^ P"⟩,
    ⟨"Disjunction Elimination", "vE", "P v Q, P -> R, Q -> R |- R"⟩,
    ⟨"Disjunction Introduction", "vI", "P |- P v Q, Q v P"⟩,
    ⟨"Conditional Elimination", "->E", "P -> Q, P |- Q"⟩,
    ⟨"Conditional Introduction", "->I", "( P |- Q ) |- P -> Q"⟩,
    ⟨"Biconditional Elimination", "<->E", "P <-> Q |- P -> Q, Q -> P"⟩,
    ⟨"Biconditional Introduction", "<->I", "P -> Q, Q -> P |- P <-> Q, Q <-> P"⟩,
    ⟨"DeMorgan's Rule", "DM", "|- -(P ^ Q) <-> (-P v -Q)"⟩ ]

/-- The roles in the Fitch logic. -/
def fitchRoles : Roles where
  assertion := "A"
  theoremIntro := "TI"
  axiomIntro := "AxI"
  subproof := some "H"

/-- The Fitch logic. -/
def fitch (config : Config) : Except Error Logic :=
  ofTable .arrow fitchRules fitchRoles config

end NaturalDeduction.Logic
