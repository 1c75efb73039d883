import NaturalDeduction.Token.Stream

/-! # Reading formulas and sequents

    The grammar, over tokens:

    * an expression is a term, or two terms with an infix operator between them;
    * a term is a prefix operator and a term, or a primary with any number of
      postfix operators after it;
    * a primary is a symbol, or an expression in brackets of one shape;
    * a sequent is a list of premises, the sign for entailment, and a list of
      one or more expressions; commas stand between members;
    * a premise is an expression, or a sequent in brackets of one shape.

    Infix operators do not chain: an operand that is itself an expression with
    an infix operator needs brackets. A premise is read as an expression first,
    and as a sequent in brackets if that fails; the error is then that of the
    second attempt.

    Readers take a list of tokens and return what they read with the tokens
    left over. A failure says which tokens were left when it arose. The bound
    on the depth of nesting is the number of tokens, and so is never reached.
    A token that is an operator says which one, so none has to be looked up here.
-/

namespace NaturalDeduction

/-- Why tokens cannot be read, and the tokens left at that place. -/
structure ParseFailure where
  message : String
  rest : List Token
deriving Repr

/-- A reader takes tokens and returns what it read with the tokens left over. -/
abbrev Reader (α : Type) := List Token → Except ParseFailure (α × List Token)

namespace Reader

/-- Reads a closing bracket of a shape. -/
def close (shape : Bracket) : Reader Unit
  | ⟨.closing shape', lexeme, p⟩ :: rest =>
    if shape' = shape then .ok ((), rest)
    else .error ⟨s!"'{shape.closer}' expected.", ⟨.closing shape', lexeme, p⟩ :: rest⟩
  | ts => .error ⟨s!"'{shape.closer}' expected.", ts⟩

/-- Puts postfix operators around a formula as long as there are any. -/
def postfixes (f : Formula) : List Token → Formula × List Token
  | ⟨.operator ⟨name, .postfixed⟩, _, _⟩ :: rest => postfixes (.app ⟨name, .postfixed⟩ [f]) rest
  | ts => (f, ts)

/-- Reads an expression, given a reader of terms. -/
def expressionOf (term : Reader Formula) : Reader Formula := fun ts => do
  let (left, rest) ← term ts
  match rest with
  | ⟨.operator ⟨name, .infixed⟩, _, _⟩ :: rest' =>
    let (right, rest'') ← term rest'
    return (.app ⟨name, .infixed⟩ [left, right], rest'')
  | _ => return (left, rest)

/-- Reads a term that is nested at most `depth` times. -/
def term (kind : SymbolKind) : (depth : Nat) → Reader Formula
  | 0, ts => .error ⟨"Term expected.", ts⟩
  | depth + 1, ts =>
    match ts with
    | ⟨.operator ⟨name, .prefixed⟩, _, _⟩ :: rest => do
      let (f, rest') ← term kind depth rest
      return (.app ⟨name, .prefixed⟩ [f], rest')
    | ⟨.opening shape, _, _⟩ :: rest => do
      let (f, rest') ← expressionOf (term kind depth) rest
      let ((), rest'') ← close shape rest'
      return postfixes f rest''
    | ⟨.symbol, name, _⟩ :: rest => .ok (postfixes (.atom ⟨name, kind⟩) rest)
    | _ => .error ⟨"Term expected.", ts⟩

/-- Reads an expression. -/
def expression (kind : SymbolKind) : Reader Formula := fun ts =>
  expressionOf (term kind ts.length) ts

/-- Reads at most `bound + 1` members with commas between them. -/
def separated {α : Type} (member : Reader α) : (bound : Nat) → Reader (List α)
  | 0, ts => do
    let (x, rest) ← member ts
    return ([x], rest)
  | bound + 1, ts => do
    let (x, rest) ← member ts
    match rest with
    | ⟨.comma, _, _⟩ :: rest' =>
      let (xs, rest'') ← separated member bound rest'
      return (x :: xs, rest'')
    | _ => return ([x], rest)

/-- Reads the sign for entailment. -/
def turnstile : Reader Unit
  | ⟨.entails, _, _⟩ :: rest => .ok ((), rest)
  | ts => .error ⟨"'|-' expected.", ts⟩

/-- Reads the premises of a sequent, of which there are none if the next token is the sign for
    entailment. -/
def premisesOf (premise : Reader Form) : Reader (List Form) := fun ts =>
  match ts with
  | ⟨.entails, _, _⟩ :: _ => .ok ([], ts)
  | _ => separated premise ts.length ts

/-- Reads a sequent, given a reader of premises. -/
def sequentOf (kind : SymbolKind) (premise : Reader Form) : Reader Sequent := fun ts => do
  let (premises, rest) ← premisesOf premise ts
  let ((), rest') ← turnstile rest
  let (conclusions, rest'') ← separated (expression kind) rest'.length rest'
  return (⟨premises, conclusions⟩, rest'')

/-- Reads a premise with sequents nested at most `depth` times. -/
def premise (kind : SymbolKind) : (depth : Nat) → Reader Form
  | depth, ts =>
    match expression kind ts with
    | .ok (f, rest) => .ok (.formula f, rest)
    | .error _ =>
      match depth, ts with
      | depth + 1, ⟨.opening shape, _, _⟩ :: rest => do
        let (s, rest') ← sequentOf kind (premise kind depth) rest
        let ((), rest'') ← close shape rest'
        return (s.toForm, rest'')
      | _, _ => .error ⟨"'(' expected.", ts⟩

/-- Reads a sequent. -/
def sequent (kind : SymbolKind) : Reader Sequent := fun ts =>
  sequentOf kind (premise kind ts.length) ts

/-- Asks that a reader uses up all tokens. -/
def toEnd {α : Type} (reader : Reader α) (ts : List Token) : Except ParseFailure α := do
  let (x, rest) ← reader ts
  if rest.isEmpty then return x else throw ⟨"EOF expected.", rest⟩

end Reader

namespace Language

/-- Reads a whole text. An error stands at the first token that was left. -/
def read {α : Type} (lang : Language) (reader : Reader α) (source : String) :
    Except SyntaxError α :=
  let stream := TokenStream.ofText lang source
  match reader.toEnd stream.pending with
  | .ok x => .ok x
  | .error e => .error ({ stream with pending := e.rest }.error e.message)

/-- Reads a formula whose atoms are all of one kind. -/
def parseFormula (lang : Language) (kind : SymbolKind) (source : String) :
    Except SyntaxError Formula :=
  lang.read (Reader.expression kind) source

/-- Reads a sequent whose atoms are all of one kind. -/
def parseSequent (lang : Language) (kind : SymbolKind) (source : String) :
    Except SyntaxError Sequent :=
  lang.read (Reader.sequent kind) source

end Language

end NaturalDeduction
