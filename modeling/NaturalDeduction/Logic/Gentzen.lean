import NaturalDeduction.Language.Horseshoe
import NaturalDeduction.Logic.Basic

/-! # The Gentzen logic

    Rules of inference for the connectives, and rules of replacement that
    change a formula in place. There are no sub-proofs.
-/

namespace NaturalDeduction.Logic

/-- The rules of the Gentzen logic. -/
def gentzenRules : List RuleEntry :=
  [ ⟨"Given", "Given", "|- P"⟩,
    ⟨"Modus Ponens", "MP", "P > Q, P |- Q"⟩,
    ⟨"Modus Tollens", "MT", "P > Q, ~Q |- ~P"⟩,
    ⟨"Hypothetical Syllogism", "HS", "P > Q, Q > R |- P > R"⟩,
    ⟨"Disjunctive Syllogism 1", "DS1", "P v Q, ~P |- Q"⟩,
    ⟨"Disjunctive Syllogism 2", "DS2", "P v Q, ~Q |- P"⟩,
    ⟨"Constructive Dilemma", "CD", "P v Q, P > R, Q > S |- R v S, S v R"⟩,
    ⟨"Absorption", "Abs", "P > Q |- P > (P & Q)"⟩,
    ⟨"Simplification", "Simp", "P & Q |- P, Q"⟩,
    ⟨"Conjunction", "Conj", "P, Q |- P & Q, Q & P"⟩,
    ⟨"Addition", "Add", "P |- P v Q, Q v P"⟩,
    ⟨"DeMorgan's (Conj)", "DM(&)", "|- ~(P & Q) <-> (~P v ~Q)"⟩,
    ⟨"DeMorgan's (Disj)", "DM(v)", "|- ~(P v Q) <-> (~P & ~Q)"⟩,
    ⟨"Commutation (Conj)", "Comm(&)", "|- (P & Q) <-> (Q & P)"⟩,
    ⟨"Commutation (Disj)", "Comm(v)", "|- (P v Q) <-> (Q v P)"⟩,
    ⟨"Association (Conj)", "Assoc(&)", "|- (P & (Q & R)) <-> ((P & Q) & R)"⟩,
    ⟨"Association (Disj)", "Assoc(v)", "|- (P v (Q v R)) <-> ((P v Q) v R)"⟩,
    ⟨"Distribution (Conj)", "Dist(&)", "|- (P & (Q v R)) <-> ((P & Q) v (P & R))"⟩,
    ⟨"Distribution (Disj)", "Dist(v)", "|- (P v (Q & R)) <-> ((P v Q) & (P v R))"⟩,
    ⟨"Double Negation", "DN", "|- P <-> ~~P"⟩,
    ⟨"Transposition", "Trans", "|- (P > Q) <-> (~Q > ~P)"⟩,
    ⟨"Material Implication", "Impl", "|- (P > Q) <-> (~P v Q)"⟩,
    ⟨"Material Equivalence (Conj)", "Equiv(&)", "|- (P <-> Q) <-> ((P & Q) v (~P & ~Q))"⟩,
    ⟨"Material Equivalence (Cond)", "Equiv(>)", "|- (P <-> Q) <-> ((P > Q) & (Q > P))"⟩,
    ⟨"Exportation", "Exp", "|- ((P & Q) > R) <-> (P > (Q > R))"⟩,
    ⟨"Tautology (Conj)", "Taut(&)", "|- P <-> (P & P)"⟩,
    ⟨"Tautology (Disj)", "Taut(v)", "|- P <-> (P v P)"⟩ ]

/-- The roles in the Gentzen logic. -/
def gentzenRoles : Roles where
  assertion := "Given"

/-- The Gentzen logic. -/
def gentzen (config : Config) : Except Error Logic :=
  ofTable .horseshoe gentzenRules gentzenRoles config

end NaturalDeduction.Logic
