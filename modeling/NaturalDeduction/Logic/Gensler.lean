import NaturalDeduction.Language.Horseshoe
import NaturalDeduction.Logic.Basic

/-! # The Gensler logic

    Formulas are broken up by simplification and inference; a conclusion is
    reached by assuming its negation and deriving a contradiction.
-/

namespace NaturalDeduction.Logic

/-- The rules of the Gensler logic. -/
def genslerRules : List RuleEntry :=
  [ ⟨"Assumption", "asm.", "|- P"⟩,
    ⟨"Simplification (Conj)", "S(&)", "P & Q |- P, Q"⟩,
    ⟨"Simplification (Disj)", "S(v)", "~(P v Q) |- ~P, ~Q"⟩,
    ⟨"Simplification (Impl)", "S(->)", "~(P > Q) |- P, ~Q"⟩,
    ⟨"Simplification (Neg)", "S(~)", "~~P |- P"⟩,
    ⟨"Simplification (Bi)", "S(<->)", "P <-> Q |- P > Q, Q > P"⟩,
    ⟨"Simplification (~Bi)", "S(~<->)", "~(P <-> Q) |- P v Q, ~(P & Q)"⟩,
    ⟨"Inference (Conj 1)", "I(&1)", "~(P & Q), P |- ~Q"⟩,
    ⟨"Inference (Conj 2)", "I(&2)", "~(P & Q), Q |- ~P"⟩,
    ⟨"Inference (Disj 1)", "I(v1)", "P v Q, ~P |- Q"⟩,
    ⟨"Inference (Disj 2)", "I(v2)", "P v Q, ~Q |- P"⟩,
    ⟨"Inference (Cond 1)", "I(->1)", "P > Q, P |- Q"⟩,
    ⟨"Inference (Cond 2)", "I(->2)", "P > Q, ~Q |- ~P"⟩,
    ⟨"Reductio Ad Absurdum", "RAA", "( ~P |- Q & ~Q ) |- P"⟩ ]

/-- The roles in the Gensler logic. -/
def genslerRoles : Roles where
  assertion := "Assumption"
  theoremIntro := "Thm"
  axiomIntro := "Ax"
  subproof := some "Assumption"

/-- The Gensler logic. -/
def gensler (config : Config) : Except Error Logic :=
  ofTable .horseshoe genslerRules genslerRoles config

end NaturalDeduction.Logic
