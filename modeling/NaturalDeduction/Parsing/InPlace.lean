import NaturalDeduction.Parsing
import NaturalDeduction.Token.Cursor

/-! # Reading in place

    A parser has one scanner and moves it on token by token. It looks at the kind
    of the next token, takes the token if that fits, and looks up in the language
    which operator a token spells. A failure leaves the scanner where it arose.
    Before a premise the parser marks the place of the scanner, and goes back
    there if what follows is no expression.

    A parser gives no result if a part of the text cannot be cut out, or if more
    is nested or repeated than its bound says. The bound is the number of
    characters, and so is never reached.
-/

namespace NaturalDeduction

/-- Work with a scanner that may fail, or give no result. -/
abbrev Parser : Type → Type := ExceptT SyntaxError (StateT Scanner Option)

namespace Parser

variable {α : Type}

/-- The result of the work, and the scanner that it leaves. -/
def outcome? (p : Parser α) (s : Scanner) : Option (Except SyntaxError α × Scanner) := p.run.run s

/-- Work that changes nothing, and gives no result if there is none. -/
def ofOption (x : Option α) : Parser α := ExceptT.lift (StateT.lift x)

/-! ### Tokens -/

/-- The next token. -/
def peek : Parser Token := do return (← get).token

/-- Takes the next token. -/
def consume : Parser Token := do
  let (t, s) ← ofOption (← get).consume?
  set s
  return t

/-- Fails at the next token. -/
def fail (message : String) : Parser α := do throw (← ofOption ((← get).error? message))

/-- Takes the next token if its kind is one of those wanted. -/
def expect (wanted : TokenKind → Bool) (message : String) : Parser Token := do
  match ← ofOption ((← get).expect? wanted message) with
  | .ok (t, s) =>
    set s
    return t
  | .error e => throw e

/-- The operator that a token spells. -/
def operator (t : Token) : Parser Operator := do
  match (← get).language.operator? t.lexeme with
  | some op => return op
  | none => fail "Operator expected."

/-- What closes an opening bracket. -/
def closerFor (opener : String) : String :=
  if opener = "[" then "]" else if opener = "\x7b" then "\x7d" else ")"

/-- Takes the bracket that closes an opening one. -/
def close (opener : String) : Parser Unit := do
  let t ← peek
  if t.kind.isClosing ∧ t.lexeme = closerFor opener then
    let _ ← consume
  else fail s!"'{closerFor opener}' expected."

/-! ### Expressions -/

/-- Puts at most `bound` postfix operators around a formula. -/
def postfixes : (bound : Nat) → Formula → Parser Formula
  | 0, _ => ofOption none
  | bound + 1, f => do
    let t ← peek
    if t.kind.fixity? = some .postfixed then
      let op ← operator t
      let _ ← consume
      postfixes bound (.app op [f])
    else return f

/-- Reads an expression, given a parser of terms. -/
def expressionOf (term : Parser Formula) : Parser Formula := do
  let left ← term
  let t ← peek
  if t.kind.fixity? = some .infixed then
    let op ← operator t
    let _ ← consume
    let right ← term
    return .app op [left, right]
  else return left

/-- Reads a symbol or an expression in brackets, given a parser of expressions. -/
def primary (kind : SymbolKind) (expression : Parser Formula) : Parser Formula := do
  let t ← peek
  match t.kind with
  | .opening _ =>
    let opener ← consume
    let f ← expression
    close opener.lexeme
    return f
  | .symbol =>
    let name ← consume
    return .atom ⟨name.lexeme, kind⟩
  | _ => fail "Term expected."

/-- Reads a term that is nested less than `bound` times. -/
def term (kind : SymbolKind) : (bound : Nat) → Parser Formula
  | 0 => ofOption none
  | bound + 1 => do
    let t ← peek
    if t.kind.fixity? = some .prefixed then
      -- the operand takes up the postfix operators after it
      let op ← operator t
      let _ ← consume
      let f ← term kind bound
      return .app op [f]
    else
      let f ← primary kind (expressionOf (term kind bound))
      postfixes (bound + 1) f

/-- Reads an expression. -/
def expression (kind : SymbolKind) (bound : Nat) : Parser Formula :=
  expressionOf (term kind bound)

/-! ### Sequents -/

/-- Reads at most `bound` members with commas between them. -/
def separated (member : Parser α) : (bound : Nat) → Parser (List α)
  | 0 => ofOption none
  | bound + 1 => do
    let x ← member
    let t ← peek
    if t.kind = .comma then
      let _ ← consume
      let xs ← separated member bound
      return x :: xs
    else return [x]

/-- Reads the premises of a sequent, of which there are none if the next token is the sign for
    entailment. -/
def premisesOf (premise : Parser Form) (bound : Nat) : Parser (List Form) := do
  let t ← peek
  if t.kind = .entails then return [] else separated premise bound

/-- Reads a sequent, given a parser of premises. -/
def sequentOf (kind : SymbolKind) (premise : Parser Form) (bound : Nat) : Parser Sequent := do
  let premises ← premisesOf premise bound
  let _ ← expect (· = .entails) "'|-' expected."
  let conclusions ← separated (expression kind bound) bound
  return ⟨premises, conclusions⟩

/-- Reads a premise with sequents nested less than `bound` times. -/
def premise (kind : SymbolKind) : (bound : Nat) → Parser Form
  | 0 => ofOption none
  | bound + 1 => do
    let place := (← get).mark
    -- why there is no expression is forgotten: the error is that of the second attempt
    tryCatch (do return .formula (← expression kind (bound + 1))) fun _ => do
      modify fun s => s.rescan place
      let opener ← expect TokenKind.isOpening "'(' expected."
      let s ← sequentOf kind (premise kind bound) bound
      close opener.lexeme
      return s.toForm

/-- Reads a sequent. -/
def sequent (kind : SymbolKind) (bound : Nat) : Parser Sequent :=
  sequentOf kind (premise kind bound) bound

/-- Asks that a parser uses up all tokens. -/
def toEnd (p : Parser α) : Parser α := do
  let x ← p
  let _ ← expect (· = .eof) "EOF expected."
  return x

end Parser

namespace Language

/-- Reads a whole text in place. -/
def parse? {α : Type} (lang : Language) (parser : (bound : Nat) → Parser α) (source : String) :
    Option (Except SyntaxError α) := do
  let s ← Scanner.ofText? lang source
  ((parser (source.length + 1)).toEnd.outcome? s).map Prod.fst

/-- Reads a formula in place. -/
def parseFormula? (lang : Language) (kind : SymbolKind) (source : String) :
    Option (Except SyntaxError Formula) :=
  lang.parse? (Parser.expression kind) source

/-- Reads a sequent in place. -/
def parseSequent? (lang : Language) (kind : SymbolKind) (source : String) :
    Option (Except SyntaxError Sequent) :=
  lang.parse? (Parser.sequent kind) source

end Language

end NaturalDeduction
