import NaturalDeduction.Language.Lexicon
import NaturalDeduction.Sequent

/-! # Languages

    A language is made from a lexicon in which every lexeme has spellings, no
    spelling belongs to two lexemes, and there is a sign for entailment. It
    tells which lexeme a spelling belongs to, and which spelling to write for
    an operator.
-/

namespace NaturalDeduction

/-- A checked lexicon. -/
structure Language where
  lexemes : List Lexeme
  /-- The sign between premises and conclusions. -/
  entailment : Lexeme
  /-- The operator of equivalence theorems, if there is one. -/
  equivalence : Option Operator
deriving Repr

namespace Lexicon

/-- The first lexeme of a list with a spelling. -/
def owner? (lexemes : List Lexeme) (spelling : String) : Option Lexeme :=
  lexemes.find? fun l => l.spellings.contains spelling

/-- Checks spellings of `l` from left to right: none is empty, none belongs to a lexeme before `l`. -/
def checkSpellings (before : List Lexeme) (l : Lexeme) : List String → Except LexiconError Unit
  | [] => .ok ()
  | s :: ss =>
    if s = "" then .error (.noSpellings l.name)
    else
      match owner? before s with
      | some first => .error (.duplicateSpelling s first.name l.name)
      | none => checkSpellings before l ss

/-- Checks lexemes in order: each has spellings, and they are its own. -/
def checkLexemes (before : List Lexeme) : List Lexeme → Except LexiconError Unit
  | [] => .ok ()
  | l :: ls =>
    if l.spellings = [] then .error (.noSpellings l.name)
    else
      match checkSpellings before l l.spellings with
      | .error e => .error e
      | .ok () => checkLexemes (l :: before) ls

/-- The infix operator that a spelling belongs to. -/
def infixOperator? (lexemes : List Lexeme) (spelling : String) : Option Operator :=
  match (owner? lexemes spelling).bind Lexeme.operator? with
  | some op => if op.fixity = .infixed then some op else none
  | none => none

/-- The operator for equivalence. All spellings given for it must belong to infix operators, and
    the last one counts. -/
def equivalenceOperator (lexemes : List Lexeme) (found : Option Operator) :
    List String → Except LexiconError (Option Operator)
  | [] => .ok found
  | s :: ss =>
    match infixOperator? lexemes s with
    | some op => equivalenceOperator lexemes (some op) ss
    | none => .error (.unknownEquivalence s)

end Lexicon

namespace Language

/-- The language of a lexicon, or the first thing wrong with the lexicon. -/
def ofLexicon (lexicon : Lexicon) : Except LexiconError Language := do
  Lexicon.checkLexemes [] lexicon.lexemes
  match lexicon.lexemes.find? fun l => decide (l.category = .entailment) with
  | none => throw .missingEntailment
  | some entailment =>
    let equivalence ← Lexicon.equivalenceOperator lexicon.lexemes none lexicon.equivalence
    return { lexemes := lexicon.lexemes, entailment, equivalence }

/-- The lexeme that a spelling belongs to. -/
def lookup (lang : Language) (spelling : String) : Option Lexeme :=
  Lexicon.owner? lang.lexemes spelling

/-- The first lexeme with a name. -/
def lexeme? (lang : Language) (name : String) : Option Lexeme :=
  lang.lexemes.find? fun l => l.name == name

/-- The operator that a spelling belongs to. -/
def operator? (lang : Language) (spelling : String) : Option Operator :=
  (lang.lookup spelling).bind Lexeme.operator?

/-- What is written for an operator; an operator of no lexeme is written by its name. -/
def spelling (lang : Language) (op : Operator) (style : Style) : String :=
  match lang.lexeme? op.name with
  | some l => l.spelling style
  | none => op.name

/-- Does a sequent state an equivalence without premises? -/
def isEquivalenceTheorem (lang : Language) (s : Sequent) : Bool :=
  (s.sides? lang.equivalence).isSome

end Language

end NaturalDeduction
