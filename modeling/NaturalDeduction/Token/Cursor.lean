import NaturalDeduction.Token.Stream

/-! # Cutting tokens from bytes

    A text is stored as bytes. A cursor keeps the byte up to which the text is
    used up, the number of the line and the byte at which that line starts.
    How far it moves on depends on the next character: past a run by as many
    bytes as the run has, past a character of ASCII by one byte, past any other
    character by as many bytes as it has. Columns are counted in the characters
    since the start of the line.

    Parts of a text can be cut out between two characters only. If a cursor
    were to ask for anything else, there would be no result.
-/

namespace NaturalDeduction

/-! ### Lines -/

/-- The byte at which the first newline starts. -/
def firstNewline? : List Char → Option Nat
  | [] => none
  | c :: cs => if c = '\n' then some 0 else (firstNewline? cs).map (c.utf8Size + ·)

/-- The byte at which the last newline starts. -/
def lastNewline? : List Char → Option Nat
  | [] => none
  | c :: cs =>
    match lastNewline? cs with
    | some byte => some (c.utf8Size + byte)
    | none => if c = '\n' then some 0 else none

/-- The line of a text around a byte, without its newline. -/
def lineAround? (text : String) (byte : Nat) : Option String := do
  let before ← bytesBetween? text 0 byte
  let after ← bytesBetween? text byte text.utf8ByteSize
  let start := (lastNewline? before.toList).elim 0 (· + 1)
  let stop := (firstNewline? after.toList).elim text.utf8ByteSize (byte + ·)
  bytesBetween? text start stop

/-- The number of the line and the byte at which it starts, past characters from a byte on. -/
def linesPast (line lineStart byte : Nat) : List Char → Nat × Nat
  | [] => (line, lineStart)
  | c :: cs =>
    if c = '\n' then linesPast (line + 1) (byte + 1) (byte + c.utf8Size) cs
    else linesPast line lineStart (byte + c.utf8Size) cs

/-! ### Cursors -/

/-- How far a text is used up. -/
structure Cursor where
  source : String
  /-- The byte up to which the text is used up. -/
  point : Nat
  line : Nat
  /-- The byte at which the line starts. -/
  lineStart : Nat
deriving Repr

namespace Cursor

/-- The start of a text. -/
def start (source : String) : Cursor := ⟨source, 0, 0, 0⟩

/-- All that is not used up. -/
def rest? (k : Cursor) : Option String := bytesBetween? k.source k.point k.source.utf8ByteSize

/-- Moves on by a number of bytes. -/
def advance? (k : Cursor) (bytes : Nat) : Option Cursor := do
  let passed ← bytesBetween? k.source k.point (k.point + bytes)
  let (line, lineStart) := linesPast k.line k.lineStart k.point passed.toList
  return { k with point := k.point + bytes, line, lineStart }

/-- Moves on past what `run` takes of the text. -/
def take? (k : Cursor) (run : List Char → List Char) : Option Cursor := do
  k.advance? (String.ofList (run (← k.rest?).toList)).utf8ByteSize

/-- Capitals and digits, with one colon if it comes right after them. -/
def nameRun (cs : List Char) : List Char :=
  let run := cs.takeWhile isNameChar
  if (cs.dropWhile isNameChar).head? = some ':' then run ++ [':'] else run

/-- Moves on past the token that starts with `c`, given all that is not used up. -/
def pass? (k : Cursor) (c : Char) (rest : String) : Option Cursor :=
  if c == ',' || c == ';' || c == '.' then k.advance? 1
  else if (Bracket.opened? c).isSome || (Bracket.closed? c).isSome then k.advance? 1
  else if isNameChar c then k.take? nameRun
  else if isNegation c then do
    let next ← bytesBetween? rest 1 rest.utf8ByteSize
    if next.toList.head?.any isNegation then k.advance? 1 else k.take? (·.takeWhile isSign)
  else if isSign c then k.take? (·.takeWhile isSign)
  else if 'a' ≤ c && c ≤ 'z' then k.advance? 1
  else k.advance? c.utf8Size

/-- The next token, and the cursor after it. At the end of the text, that is the token there. -/
def next? (k : Cursor) (lang : Language) : Option (Token × Cursor) := do
  let first ← k.take? (·.takeWhile isBlank)
  let column := (← bytesBetween? first.source first.lineStart first.point).length
  let place : Position := ⟨first.point, first.line, column⟩
  let rest ← first.rest?
  match rest.toList with
  | [] => return (⟨.eof, "", place⟩, first)
  | c :: _ =>
    let last ← first.pass? c rest
    let lexeme ← bytesBetween? first.source first.point last.point
    return (⟨lang.tokenKind c lexeme, lexeme, place⟩, last)

end Cursor

/-! ### Scanners -/

/-- A text of which tokens are cut one at a time. -/
structure Scanner where
  language : Language
  /-- The place after the next token. -/
  cursor : Cursor
  /-- The next token. -/
  token : Token
deriving Repr

namespace Scanner

/-- The scanner of a text, before its first token. -/
def ofText? (lang : Language) (source : String) : Option Scanner := do
  let (token, cursor) ← (Cursor.start source).next? lang
  return ⟨lang, cursor, token⟩

/-- The next token, and the scanner after it. -/
def consume? (s : Scanner) : Option (Token × Scanner) := do
  let (token, cursor) ← s.cursor.next? s.language
  return (s.token, { s with cursor, token })

/-- The next tokens, as many as wanted, and the scanner after them. -/
def consumeAll? : (count : Nat) → Scanner → Option (List Token × Scanner)
  | 0, s => some ([], s)
  | count + 1, s => do
    let (t, s') ← s.consume?
    let (ts, s'') ← consumeAll? count s'
    return (t :: ts, s'')

/-- What is kept of a scanner to go back to where it is. -/
structure Mark where
  point : Nat
  line : Nat
  lineStart : Nat
  token : Token
deriving Repr

/-- The place of a scanner. -/
def mark (s : Scanner) : Mark := ⟨s.cursor.point, s.cursor.line, s.cursor.lineStart, s.token⟩

/-- Goes back to a place. -/
def rescan (s : Scanner) (m : Mark) : Scanner :=
  let cursor := { s.cursor with point := m.point, line := m.line, lineStart := m.lineStart }
  { s with cursor, token := m.token }

/-- An error at the next token. -/
def error? (s : Scanner) (message : String) : Option SyntaxError := do
  let shown ← lineAround? s.cursor.source s.token.position.byte
  return ⟨message, s.token.position.line, s.token.position.column, shown⟩

/-- Takes the next token if its kind is one of those wanted. -/
def expect? (s : Scanner) (wanted : TokenKind → Bool) (message : String) :
    Option (Except SyntaxError (Token × Scanner)) :=
  if wanted s.token.kind then s.consume?.map .ok else (s.error? message).map .error

end Scanner

end NaturalDeduction
