import NaturalDeduction.Formula.Basic

/-! # Lexicons

    A lexicon is the table from which a language is made: its lexemes, each
    with the spellings that may be written for it, and the spellings of the
    operator that expresses equivalence. The same lexeme can have ASCII and
    other spellings; a style says which of them are written.
-/

namespace NaturalDeduction

/-- Which spelling of a lexeme is written. -/
inductive Style where
  /-- The first spelling in ASCII. -/
  | ascii
  /-- The first spelling with a character outside ASCII. -/
  | unicode
deriving DecidableEq, Repr

/-- What a lexeme is used for. -/
inductive Category where
  | operator (fixity : Fixity)
  | entailment
deriving DecidableEq, Repr

/-- A row of a lexicon. -/
structure Lexeme where
  name : String
  spellings : List String
  category : Category
  /-- Words of natural language for it. -/
  glosses : List String
deriving DecidableEq, Repr

/-- Are all characters of a text in ASCII? -/
def isAscii (text : String) : Bool := text.toList.all fun c => c.toNat < 128

namespace Lexeme

/-- The spelling written in a style. Where the style has none, it is the first spelling. -/
def spelling (l : Lexeme) (style : Style) : String :=
  let fits : String → Bool := match style with
    | .ascii => isAscii
    | .unicode => fun s => !isAscii s
  ((l.spellings.find? fits).or l.spellings.head?).getD ""

/-- The operator that the lexeme stands for. -/
def operator? (l : Lexeme) : Option Operator :=
  match l.category with
  | .operator fixity => some ⟨l.name, fixity⟩
  | .entailment => none

end Lexeme

/-- The table from which a language is made. -/
structure Lexicon where
  lexemes : List Lexeme
  /-- Spellings of the operator for equivalence. -/
  equivalence : List String
deriving DecidableEq, Repr

/-- What can be wrong with a lexicon. -/
inductive LexiconError where
  | noSpellings (lexeme : String)
  | duplicateSpelling (spelling first second : String)
  | missingEntailment
  | unknownEquivalence (spelling : String)
  /-- The text is no written form of a lexicon. -/
  | unreadable
deriving DecidableEq, Repr

/-- The wording of an error in a lexicon. -/
def LexiconError.message : LexiconError → String
  | .noSpellings lexeme => s!"lexeme '{lexeme}' has no spellings"
  | .duplicateSpelling spelling first second =>
    s!"spelling '{spelling}' is claimed by both '{first}' and '{second}'"
  | .missingEntailment => "language defines no entailment lexeme"
  | .unknownEquivalence spelling =>
    s!"equivalence spelling '{spelling}' does not name an infix operator"
  | .unreadable => "invalid language definition"

end NaturalDeduction
