import NaturalDeduction.Token.Scan

/-! # Streams of tokens

    A stream holds the tokens of a text that are still to be read, and the
    token at the end of the text, which is there for ever. To go back to an
    earlier place, keep the stream of that place.
-/

namespace NaturalDeduction

/-- The tokens of a text that are still to be read. -/
structure TokenStream where
  source : List Char
  pending : List Token
  /-- The token at the end of the text. -/
  eof : Token
deriving Repr

namespace TokenStream

/-- All tokens of a text. -/
def ofText (lang : Language) (source : String) : TokenStream where
  source := source.toList
  pending := lang.scan source
  eof := ⟨.eof, "", Position.start.after source.toList⟩

/-- The next token. -/
def peek (s : TokenStream) : Token := s.pending.headD s.eof

/-- The stream after the next token. -/
def tail (s : TokenStream) : TokenStream := { s with pending := s.pending.tail }

/-- An error at the next token. -/
def error (s : TokenStream) (message : String) : SyntaxError where
  message := message
  line := s.peek.position.line
  column := s.peek.position.column
  lineText := String.ofList (lineText s.peek.position.line s.source)

/-- All tokens still to be read, with the one at the end of the text. -/
def toList (s : TokenStream) : List Token := s.pending ++ [s.eof]

end TokenStream

end NaturalDeduction
