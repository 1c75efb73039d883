/-! # Places in a text

    A position counts bytes of UTF-8 from the start of a text, lines by the
    newlines passed, and characters since the last newline, all from 0. Only
    the newline character ends a line.
-/

namespace NaturalDeduction

/-- Space, tab, newline and carriage return. -/
def isBlank (c : Char) : Bool := c == ' ' || c == '\t' || c == '\n' || c == '\r'

/-- The part of a text between two bytes. Both must lie on the boundary of a character, and the second
    one not before the first. -/
def bytesBetween? (text : String) (start stop : Nat) : Option String := do
  let first ← text.pos? ⟨start⟩
  let last ← text.pos? ⟨stop⟩
  return (← text.slice? first last).copy

/-- A place in a text. -/
structure Position where
  byte : Nat
  line : Nat
  column : Nat
deriving DecidableEq, Repr

namespace Position

/-- The start of a text. -/
def start : Position := ⟨0, 0, 0⟩

/-- The place after a character. -/
def advance (p : Position) (c : Char) : Position :=
  if c = '\n' then ⟨p.byte + c.utf8Size, p.line + 1, 0⟩
  else ⟨p.byte + c.utf8Size, p.line, p.column + 1⟩

/-- The place after some characters. -/
def after (p : Position) (cs : List Char) : Position := cs.foldl advance p

end Position

/-- The line of a text with a number, without its newline. -/
def lineText : Nat → List Char → List Char
  | 0, cs => cs.takeWhile (· ≠ '\n')
  | n + 1, cs => lineText n ((cs.dropWhile (· ≠ '\n')).drop 1)

/-- A place in a text where it cannot be read, with the line to show. -/
structure SyntaxError where
  message : String
  line : Nat
  column : Nat
  lineText : String
deriving DecidableEq, Repr

/-- Three lines: the place counted from 1 and the message, the line of the text, and a caret below
    the place. -/
def SyntaxError.display (e : SyntaxError) : String :=
  s!"Error ({e.line + 1},{e.column + 1}): {e.message}\n{e.lineText}\n" ++
    String.ofList (List.replicate e.column ' ') ++ "^"

end NaturalDeduction
