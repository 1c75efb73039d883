import NaturalDeduction.Formula.Basic
import NaturalDeduction.Source

/-! # Tokens

    A token is a piece of a text with its kind and its place. What the token
    means to a reader of formulas is in the kind: the operator that it spells,
    or the shape of a bracket.
-/

namespace NaturalDeduction

/-- The shape of a bracket. -/
inductive Bracket where
  | round
  | square
  | curly
deriving DecidableEq, Repr

namespace Bracket

/-- The closing bracket of a shape. -/
def closer : Bracket → Char
  | .round => ')'
  | .square => ']'
  | .curly => '\x7d'

/-- The shape that a character opens. -/
def opened? (c : Char) : Option Bracket :=
  if c = '(' then some .round else if c = '[' then some .square
  else if c = '\x7b' then some .curly else none

/-- The shape that a character closes. -/
def closed? (c : Char) : Option Bracket :=
  if c = ')' then some .round else if c = ']' then some .square
  else if c = '\x7d' then some .curly else none

end Bracket

/-- What a token is to a reader of formulas. -/
inductive TokenKind where
  /-- The end of the text. -/
  | eof
  | unknown
  /-- A spelling of an operator. -/
  | operator (op : Operator)
  | opening (shape : Bracket)
  | closing (shape : Bracket)
  /-- The name of an atom, or a run of signs that spells nothing. -/
  | symbol
  /-- A small letter from `a` to `t`. -/
  | objectName
  /-- A small letter from `u` to `z`. -/
  | objectVariable
  | comma
  | entails
  | punctuation
deriving DecidableEq, Repr

/-- A three-letter name for a kind. -/
def TokenKind.tag : TokenKind → String
  | .eof => "EOF"
  | .unknown => "UNK"
  | .operator ⟨_, .prefixed⟩ => "PRE"
  | .operator ⟨_, .postfixed⟩ => "PST"
  | .operator ⟨_, .infixed⟩ => "INF"
  | .opening _ => "OPN"
  | .closing _ => "CLS"
  | .symbol => "SYM"
  | .objectName => "OBJ"
  | .objectVariable => "VAR"
  | .comma => "CMA"
  | .entails => "ENT"
  | .punctuation => "PUN"

/-- The fixity of operators of a kind. -/
def TokenKind.fixity? : TokenKind → Option Fixity
  | .operator op => some op.fixity
  | _ => none

/-- Is it the kind of opening brackets? -/
def TokenKind.isOpening : TokenKind → Bool
  | .opening _ => true
  | _ => false

/-- Is it the kind of closing brackets? -/
def TokenKind.isClosing : TokenKind → Bool
  | .closing _ => true
  | _ => false

/-- A piece of a text. -/
structure Token where
  kind : TokenKind
  lexeme : String
  position : Position
deriving DecidableEq, Repr

/-- The kind and the text of a token, as `[TAG:text]`. -/
def Token.display (t : Token) : String := s!"[{t.kind.tag}:{t.lexeme}]"

end NaturalDeduction
