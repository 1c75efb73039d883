import NaturalDeduction.Language.Basic
import NaturalDeduction.Token.Basic

/-! # Cutting a text into tokens

    The first character of a token decides how far the token reaches: a name
    takes all capitals and digits that follow and one colon after them, a run
    of signs takes all signs that follow, and every other character stands
    alone. A sign of negation before another one stands alone too, so that two
    negations are two tokens. Blanks separate tokens and are dropped.

    A token whose text spells a lexeme of the language becomes what the lexeme
    is. Commas and brackets are never spellings.
-/

namespace NaturalDeduction

/-! ### Classes of characters -/

/-- Capital letters and digits of ASCII. -/
def isNameChar (c : Char) : Bool := c.isUpper || c.isDigit

/-- Signs of which operators are made. -/
def isSign (c : Char) : Bool := "@#$%^&*_=\\|~:<>/?!+-".toList.contains c

/-- Signs that stand for negation. -/
def isNegation (c : Char) : Bool := c == '-' || c == '~'

/-- The kind of a token by its first character. -/
def TokenKind.ofChar (c : Char) : TokenKind :=
  if c == ',' then .comma
  else if c == ';' || c == '.' then .punctuation
  else if let some shape := Bracket.opened? c then .opening shape
  else if let some shape := Bracket.closed? c then .closing shape
  else if isNameChar c || isSign c then .symbol
  else if 'a' ≤ c && c ≤ 't' then .objectName
  else if 'u' ≤ c && c ≤ 'z' then .objectVariable
  else .unknown

/-! ### The reach of a token -/

/-- The characters after the first one, `c`, that belong to the same token. -/
def tokenTail (c : Char) (rest : List Char) : List Char :=
  if isNameChar c then
    let run := rest.takeWhile isNameChar
    if (rest.dropWhile isNameChar).head? = some ':' then run ++ [':'] else run
  else if isNegation c && rest.head?.any isNegation then []
  else if isSign c then rest.takeWhile isSign
  else []

/-- The kind of a token that starts with `c`: a lexeme of the language if it spells one. -/
def Language.tokenKind (lang : Language) (c : Char) (lexeme : String) : TokenKind :=
  match TokenKind.ofChar c with
  | .comma => .comma
  | .opening shape => .opening shape
  | .closing shape => .closing shape
  | kind =>
    match lang.lookup lexeme with
    | some ⟨name, _, .operator fixity, _⟩ => .operator ⟨name, fixity⟩
    | some ⟨_, _, .entailment, _⟩ => .entails
    | none => kind

/-- The tokens of a text from a position on. The first `skip` characters belong to a token that is
    already listed. -/
def Language.scanFrom (lang : Language) : (skip : Nat) → Position → List Char → List Token
  | _, _, [] => []
  | skip + 1, p, c :: cs => lang.scanFrom skip (p.advance c) cs
  | 0, p, c :: cs =>
    if isBlank c then lang.scanFrom 0 (p.advance c) cs
    else
      let tail := tokenTail c cs
      let lexeme := String.ofList (c :: tail)
      ⟨lang.tokenKind c lexeme, lexeme, p⟩ :: lang.scanFrom tail.length (p.advance c) cs

/-- The tokens of a text, without the one at its end. -/
def Language.scan (lang : Language) (source : String) : List Token :=
  lang.scanFrom 0 .start source.toList

end NaturalDeduction
