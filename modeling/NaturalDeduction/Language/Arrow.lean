import NaturalDeduction.Language.Horseshoe

/-! # The arrow language

    Negation `-`, conjunction `^`, disjunction `v`, conditional `->` and
    biconditional `<->`.
-/

namespace NaturalDeduction

/-- The table of the arrow language. -/
def Lexicon.arrow : Lexicon where
  lexemes :=
    [⟨"Negation", ["-", "¬"], .operator .prefixed,
        ["no", "not", "non-", "it is not the case that"]⟩,
      ⟨"Conjunction", ["^", "∧"], .operator .infixed, ["and", "but", "also"]⟩,
      ⟨"Disjunction", ["v", "∨"], .operator .infixed, ["or", "unless"]⟩,
      ⟨"Conditional", ["->", "→"], .operator .infixed,
        ["implies", "if-then", "only if", "is a sufficient condition for"]⟩,
      ⟨"Biconditional", ["<->", "↔"], .operator .infixed,
        ["if and only if", "iff", "just if"]⟩] ++ modalities
  equivalence := ["<->", "↔"]

/-- The language with `- ^ v -> <->`. -/
def Language.arrow : Language where
  lexemes := Lexicon.arrow.lexemes
  entailment := Lexicon.turnstile
  equivalence := some ⟨"Biconditional", .infixed⟩

/-- The language is the one that its lexicon gives. -/
theorem Language.ofLexicon_arrow : Language.ofLexicon Lexicon.arrow = .ok Language.arrow := by
  rfl

end NaturalDeduction
