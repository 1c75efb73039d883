import NaturalDeduction.Language.Basic

/-! # The horseshoe language

    Negation `~`, conjunction `&`, disjunction `v`, conditional `>` and
    biconditional `<->`, with the modal operators and the turnstile that all
    built-in languages share.
-/

namespace NaturalDeduction

namespace Lexicon

/-- The sign for entailment. -/
def turnstile : Lexeme := ⟨"Entailment", ["|-", "⊦"], .entailment, ["entails"]⟩

/-- Necessity, possibility and entailment. -/
def modalities : List Lexeme :=
  [⟨"Necessitation", ["N:", "□"], .operator .prefixed,
      ["it is necessary that", "it is necessarily the case that"]⟩,
    ⟨"Possibility", ["P:", "◇"], .operator .prefixed,
      ["it is possible that", "it is possibly the case that"]⟩,
    turnstile]

/-- The table of the horseshoe language. -/
def horseshoe : Lexicon where
  lexemes :=
    [⟨"Negation", ["~", "¬"], .operator .prefixed,
        ["no", "not", "non-", "it is not the case that"]⟩,
      ⟨"Conjunction", ["&", "∧"], .operator .infixed, ["and", "but", "also"]⟩,
      ⟨"Disjunction", ["v", "∨"], .operator .infixed, ["or", "unless"]⟩,
      ⟨"Conditional", [">", "⊃"], .operator .infixed,
        ["implies", "if-then", "only if", "is a sufficient condition for"]⟩,
      ⟨"Biconditional", ["<->", "≡"], .operator .infixed,
        ["if and only if", "iff", "just if"]⟩] ++ modalities
  equivalence := ["<->", "≡"]

end Lexicon

/-- The language with `~ & v > <->`. -/
def Language.horseshoe : Language where
  lexemes := Lexicon.horseshoe.lexemes
  entailment := Lexicon.turnstile
  equivalence := some ⟨"Biconditional", .infixed⟩

/-- The language is the one that its lexicon gives. -/
theorem Language.ofLexicon_horseshoe :
    Language.ofLexicon Lexicon.horseshoe = .ok Language.horseshoe := by
  rfl

end NaturalDeduction
